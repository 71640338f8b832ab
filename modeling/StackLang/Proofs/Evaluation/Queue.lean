import StackLang.Proofs.Evaluation.Modes
import StackLang.Proofs.Framework.Lasting
import StackLang.Proofs.Session.Moves

/-!
# Sources that are queued in step mode

In step mode an embedder may queue sources at any time: while a word of an earlier one runs, while a
definition is open, or when the source in front has been read to its end and the word that it called
is still running.  Behind the source in front the others only wait, so the steps are those of
evaluating the sources one after the other.

* `Ahead`: the session that evaluates one source at a time, next to one with sources that wait.
* `Ahead.step`, `Ahead.queue`: what becomes of that pair with each call.
* `ends_interleaved`: the calls, in any order, lead to where the sources lead one after the other.
-/

namespace StackLang

/-- What an embedder does in step mode: it queues a source, or it asks for a step. -/
inductive QueueCall where
  | queue (source : String)
  | step
deriving DecidableEq

namespace QueueCall

open Action

def run (fuel : Nat) : QueueCall → Action Unit
  | queue source => evaluate fuel source
  | step => discard stepOnce

/-- The source that the call queues. -/
def source? : QueueCall → Option String
  | queue source => some source
  | step => none

/-- The sources that are queued, in their order. -/
def sources (calls : List QueueCall) : List String :=
  calls.filterMap source?

end QueueCall

namespace Action

/-- Make the calls, and ask for steps until nothing is in flight. -/
def interleaved : List QueueCall → (fuel : Nat) → Action Unit
  | [], fuel => stepUntilDone fuel
  | c :: calls, fuel => do
    c.run fuel
    interleaved calls fuel

/-- Evaluate one source after the other. -/
def evaluateAll : List String → (fuel : Nat) → Action Unit
  | [], _ => pure ()
  | source :: sources, fuel => do
    evaluate fuel source
    evaluateAll sources fuel

variable {s t u : Session}

/-! ## More fuel -/

theorem idle_of_runPending_zero (h : runPending 0 s = .ok () t) : s.hasPending = false := by
  cases hp : s.hasPending with
  | false => rfl
  | true =>
    rw [runPending, get_bind, if_pos hp] at h
    cases h

theorem runPending_mono {m n : Nat} (h : runPending m s = .ok () t) (hmn : m ≤ n) :
    runPending n s = .ok () t := by
  induction m generalizing s n with
  | zero =>
    have hp := idle_of_runPending_zero h
    rwa [runPending_of_idle hp] at h ⊢
  | succ m ih =>
    obtain ⟨n, rfl⟩ : ∃ k, n = k + 1 := ⟨n - 1, by omega⟩
    rw [runPending_succ] at h ⊢
    split at h
    · rename_i hp
      rw [if_pos hp]
      cases hr : checked step s with
      | ok a u =>
        rw [hr] at h
        exact ih h (by omega)
      | error f u =>
        rw [hr] at h
        cases h
    · rename_i hp
      rw [if_neg hp]
      exact h

theorem evaluate_mono {m n : Nat} {source : String} (h : evaluate m source s = .ok () t)
    (hmn : m ≤ n) : evaluate n source s = .ok () t := by
  by_cases hm : s.mode = .step
  · rwa [Session.evaluate_of_step hm] at h ⊢
  · rw [Session.evaluate_of_run hm] at h ⊢
    exact runPending_mono h hmn

theorem evaluateAll_mono {m n : Nat} {sources : List String}
    (h : evaluateAll sources m s = .ok () t) (hmn : m ≤ n) :
    evaluateAll sources n s = .ok () t := by
  induction sources generalizing s with
  | nil => exact h
  | cons source sources ih =>
    obtain ⟨_, u, hu, h⟩ := exists_of_bind h
    rw [evaluateAll, bind_apply, evaluate_mono hu hmn]
    exact ih h

/-! ## One source after the other -/

/-- What is in flight comes to its end, the sources are evaluated behind it, and this is left. -/
def Finishes (s : Session) (sources : List String) (left : Visible) : Prop :=
  ∃ fuel t u, runPending fuel s = .ok () t ∧ evaluateAll sources fuel t = .ok () u ∧
    u.visible = left

namespace Finishes

variable {source : String} {sources : List String} {left : Visible}

theorem step (hp : s.hasPending = true) (hs : checked Action.step s = .ok () t)
    (h : Finishes t sources left) : Finishes s sources left := by
  obtain ⟨fuel, v, w, hv, hw, hl⟩ := h
  refine ⟨fuel + 1, v, w, ?_, evaluateAll_mono hw (Nat.le_succ _), hl⟩
  rw [runPending_succ, if_pos hp, hs]
  exact hv

/-- With nothing in flight the next source comes to the front. -/
theorem evaluate (hp : s.hasPending = false) (hm : s.mode ≠ .step)
    (h : Finishes { s with sources := [.ofSource inputPath source] } sources left) :
    Finishes s (source :: sources) left := by
  obtain ⟨fuel, v, w, hv, hw, hl⟩ := h
  refine ⟨fuel, s, w, runPending_of_idle hp fuel, ?_, hl⟩
  rw [evaluateAll, bind_apply, Session.evaluate_of_run hm, sources_append_of_idle hp, hv]
  exact hw

/-- A source without tokens does nothing. -/
theorem skip (hp : s.hasPending = false) (hm : s.mode ≠ .step) (hc : s.cancelled = false)
    (he : (Pending.ofSource inputPath source).isExhausted = true)
    (h : Finishes s sources left) : Finishes s (source :: sources) left := by
  obtain ⟨hf, hs⟩ := Session.idle_of_hasPending hp
  have hq : Queued { s with sources := [.ofSource inputPath source] }
      (.ofSource inputPath source) := ⟨hf, rfl, hc, rfl⟩
  refine .evaluate hp hm (.step (by simp [Session.hasPending]) (hq.checkedStep_eq he) ?_)
  rwa [show { s with sources := [] } = s by rw [← hs]]

end Finishes

/-! ## Sources that wait -/

/-- The sources of these texts, before any of their tokens is used. -/
def waiting (sources : List String) : List Pending :=
  sources.map (.ofSource inputPath)

/-- `s` evaluates one source at a time, and `t` is where it is with more sources that wait behind
that one.  Between two words the one in front is not used up, and nothing waits behind nothing. -/
structure Ahead (sources : List String) (s t : Session) : Prop where
  running : s.cancelled = false
  mode : s.mode ≠ .step
  stepping : t.mode = .step
  same : ∃ (mode : Mode) (observers : Observers), t = { s with
    mode
    observers
    sources := s.sources ++ waiting sources }
  idle : s.sources = [] → s.frame = none ∧ sources = []
  fresh : s.frame = none → ∀ p rest, s.sources = p :: rest → p.isExhausted = false

/-- Of the sources that wait those come to the front that have tokens. -/
theorem exists_unusedSources (sources : List String) :
    ∃ skipped rest, sources = skipped ++ rest ∧
      (∀ source ∈ skipped, (Pending.ofSource inputPath source).isExhausted = true) ∧
      (∀ p ∈ (waiting rest).head?, p.isExhausted = false) ∧
      unusedSources (waiting sources) = .ok (waiting rest) := by
  induction sources with
  | nil => exact ⟨[], [], rfl, nofun, nofun, rfl⟩
  | cons source sources ih =>
    cases he : (Pending.ofSource inputPath source).isExhausted with
    | true =>
      obtain ⟨skipped, rest, hs, hskipped, hrest, hu⟩ := ih
      refine ⟨source :: skipped, rest, congrArg (source :: ·) hs, ?_, hrest, ?_⟩
      · intro x hx
        rcases List.mem_cons.1 hx with rfl | hx
        · exact he
        · exact hskipped x hx
      · rw [waiting, List.map_cons, unusedSources, if_pos he]
        exact hu
    | false =>
      refine ⟨[], source :: sources, rfl, nofun, ?_, ?_⟩
      · rintro p ⟨⟩
        exact he
      · rw [waiting, List.map_cons, unusedSources, if_neg (by simp [he])]

theorem Finishes.skipAll {skipped rest : List String} {left : Visible} (hp : s.hasPending = false)
    (hm : s.mode ≠ .step) (hc : s.cancelled = false)
    (he : ∀ source ∈ skipped, (Pending.ofSource inputPath source).isExhausted = true)
    (h : Finishes s rest left) : Finishes s (skipped ++ rest) left := by
  induction skipped with
  | nil => exact h
  | cons source skipped ih =>
    exact .skip hp hm hc (he source List.mem_cons_self)
      (ih fun x hx => he x (List.mem_cons_of_mem _ hx))

/-- The mode does not depend on anything that an operation works on. -/
theorem mode_of_operation (h : operation s = .ok () t) : t.mode = s.mode := by
  have hm : Lasting fun u => u.mode = s.mode :=
    ⟨fun _ h => h, fun _ h => h, fun _ h => h, fun _ h => h, fun _ h => h⟩
  have ha := hm.congruence.alike_operation (fun _ _ h => h) (fun _ _ h => h)
    (show s.mode = s.mode from rfl)
  rw [h] at ha
  cases ha with
  | ok _ h => exact h.2

/-- Nothing is in flight, and of the sources that wait the first with tokens comes to the front. -/
theorem exists_ahead_of_idle {sources : List String} {left : List Pending} {mode : Mode}
    (observers : Observers) (hp : s.hasPending = false) (hc : s.cancelled = false)
    (hm : s.mode ≠ .step) (hstep : mode = .step)
    (hu : unusedSources (waiting sources) = .ok left) :
    ∃ u rest, Ahead rest u { s with mode, observers, sources := left } ∧
      ∀ more left, Finishes u (rest ++ more) left → Finishes s (sources ++ more) left := by
  obtain ⟨skipped, rest, rfl, hskipped, hrest, hok⟩ := exists_unusedSources sources
  rw [hok] at hu
  cases hu
  obtain ⟨hf, hs⟩ := Session.idle_of_hasPending hp
  have hskip {more : List String} {left : Visible} (h : Finishes s (rest ++ more) left) :
      Finishes s (skipped ++ rest ++ more) left := by
    rw [List.append_assoc]
    exact .skipAll hp hm hc hskipped h
  cases rest with
  | nil =>
    refine ⟨s, [], ⟨hc, hm, hstep, ⟨mode, observers, ?_⟩, fun _ => ⟨hf, rfl⟩, fun _ p q hq => ?_⟩,
      fun more left h => hskip h⟩
    · rw [hs]
      rfl
    · rw [hs] at hq
      cases hq
  | cons source rest =>
    refine ⟨{ s with sources := [.ofSource inputPath source] }, rest,
      ⟨hc, hm, hstep, ⟨mode, observers, rfl⟩, nofun, fun _ p q hq => ?_⟩,
      fun more left h => hskip (.evaluate hp hm h)⟩
    cases hq
    exact hrest _ rfl

/-- What is dropped at the end of a step: nothing of the sources that wait, as long as one is left
before them. -/
theorem exists_kept {extra : List Pending} (h : Alongside extra s t)
    (ht : dropUsedSources t = .ok () u) :
    ∃ kept, dropUsedSources s = .ok () { s with sources := kept } ∧
      (kept ≠ [] ∧ (s.frame = none → ∀ p rest, kept = p :: rest → p.isExhausted = false) ∧
          u = { t with sources := kept ++ extra } ∨
        kept = [] ∧ s.frame = none ∧
          ∃ left, unusedSources extra = .ok left ∧ u = { t with sources := left }) := by
  have hf : t.frame = s.frame := by
    obtain ⟨-, -, mode, observers, rfl⟩ := h
    rfl
  have hsources : t.sources = s.sources ++ extra := by
    obtain ⟨-, -, mode, observers, rfl⟩ := h
    rfl
  obtain hframe | ⟨f, hframe⟩ := Option.eq_none_or_eq_some s.frame
  · rw [Session.dropUsedSources_of_idle (hf.trans hframe), hsources, unusedSources_append] at ht
    rw [Session.dropUsedSources_of_idle hframe]
    cases hu : unusedSources s.sources with
    | error d =>
      rw [hu] at ht
      cases ht
    | ok kept =>
      rw [hu] at ht
      refine ⟨kept, rfl, ?_⟩
      cases kept with
      | cons p kept =>
        cases ht
        refine .inl ⟨List.cons_ne_nil _ _, fun _ q rest hq => ?_, rfl⟩
        cases hq
        exact Session.isExhausted_of_unusedSources hu
      | nil =>
        dsimp only at ht
        cases hleft : unusedSources extra with
        | error d =>
          rw [hleft] at ht
          cases ht
        | ok left =>
          rw [hleft] at ht
          cases ht
          exact .inr ⟨rfl, hframe, left, rfl, rfl⟩
  · rw [Session.dropUsedSources_of_frame (hf.trans hframe)] at ht
    cases ht
    refine ⟨s.sources, Session.dropUsedSources_of_frame hframe, .inl ⟨h.waiting, ?_, ?_⟩⟩
    · rw [hframe]
      exact nofun
    · rw [← hsources]

namespace Ahead

variable {sources : List String}

theorem hasPending (h : Ahead sources s t) : t.hasPending = s.hasPending := by
  obtain ⟨mode, observers, rfl⟩ := h.same
  unfold Session.hasPending
  cases hs : s.sources with
  | nil => rw [(h.idle hs).2]; rfl
  | cons p rest => rfl

theorem visible (h : Ahead sources s t) : t.visible = s.visible := by
  obtain ⟨mode, observers, rfl⟩ := h.same
  rfl

theorem finishes_of_idle (h : Ahead sources s t) (hp : t.hasPending = false) :
    Finishes s sources t.visible := by
  rw [h.hasPending] at hp
  obtain ⟨-, rfl⟩ := h.idle (Session.idle_of_hasPending hp).2
  exact ⟨0, s, s, runPending_of_idle hp 0, rfl, h.visible.symm⟩

/-- A step of the session with sources that wait is one of the other. -/
theorem step (h : Ahead sources s t) (hp : t.hasPending = true)
    (ht : checked Action.step t = .ok () u) :
    ∃ v rest, Ahead rest v u ∧
      ∀ more left, Finishes v (rest ++ more) left → Finishes s (sources ++ more) left := by
  rw [h.hasPending] at hp
  have hw : s.sources ≠ [] := by
    intro hs
    rw [Session.hasPending, (h.idle hs).1, hs] at hp
    cases hp
  have ha : Alongside (waiting sources) s t := ⟨hw, h.running, h.same⟩
  have ht := eq_ok_of_checked ht
  rw [Session.step_of_running ha.cancelled] at ht
  obtain ⟨_, t', ht', hdrop⟩ := exists_of_bind ht
  have hop := ha.alike_operation
  rw [ht'] at hop
  generalize hs : operation s = r at hop
  cases hop with
  | ok _ hside =>
    rename_i s'
    have hm : s'.mode ≠ .step := mode_of_operation hs ▸ h.mode
    have hm' : t'.mode = .step := (mode_of_operation ht').trans h.stepping
    obtain ⟨kept, hkept, hu⟩ := exists_kept hside hdrop
    have hstep : checked Action.step s = .ok () { s' with sources := kept } := by
      refine checked_ok ?_
      rw [Session.step_of_running h.running, bind_apply, hs]
      exact hkept
    obtain ⟨-, hc, mode, observers, rfl⟩ := hside
    rcases hu with ⟨hne, hfresh, rfl⟩ | ⟨rfl, hf, left, hleft, rfl⟩
    · exact ⟨{ s' with sources := kept }, sources, ⟨hc, hm, hm', ⟨mode, observers, rfl⟩,
        fun hn => (hne hn).elim, hfresh⟩, fun more left hl => .step hp hstep hl⟩
    · have hidle : Session.hasPending { s' with sources := [] } = false := by
        simp [Session.hasPending, hf]
      obtain ⟨v, rest, hv, hall⟩ := exists_ahead_of_idle observers hidle hc hm hm' hleft
      exact ⟨v, rest, hv, fun more left hl => .step hp hstep (hall more left hl)⟩

/-- A source that is queued waits behind the others. -/
theorem queue {source : String} {fuel : Nat} (h : Ahead sources s t)
    (ht : evaluate fuel source t = .ok () u) :
    ∃ v rest, Ahead rest v u ∧
      ∀ more left, Finishes v (rest ++ more) left →
        Finishes s (sources ++ source :: more) left := by
  have hidle := h.idle
  have hfresh := h.fresh
  obtain ⟨mode, observers, rfl⟩ := h.same
  rw [Session.evaluate_of_step h.stepping] at ht
  have ht := eq_ok_of_checked ht
  have happend : s.sources ++ waiting sources ++ [Pending.ofSource inputPath source] =
      s.sources ++ waiting (sources ++ [source]) := by
    rw [waiting, waiting, List.map_append, ← List.append_assoc]
    rfl
  rw [show ({ s with mode, observers, sources := s.sources ++ waiting sources } :
    Session).sources ++ [.ofSource inputPath source] = _ from happend] at ht
  cases hs : s.sources with
  | nil =>
    obtain ⟨hf, rfl⟩ := hidle hs
    have hu : unusedSources (s.sources ++ waiting [source]) = unusedSources (waiting [source]) :=
      by rw [hs, List.nil_append]
    rw [List.nil_append, Session.dropUsedSources_of_idle (s := { s with
      mode
      observers
      sources := s.sources ++ waiting [source] }) hf, hu] at ht
    cases hleft : unusedSources (waiting [source]) with
    | error d =>
      rw [hleft] at ht
      cases ht
    | ok left =>
      rw [hleft] at ht
      cases ht
      exact exists_ahead_of_idle _ (by simp [Session.hasPending, hf, hs]) h.running h.mode
        h.stepping hleft
  | cons p rest =>
    rw [Session.dropUsedSources_of_unused (s := { s with
      mode
      observers
      sources := s.sources ++ waiting (sources ++ [source]) }) fun hf => ?_] at ht
    · cases ht
      refine ⟨s, sources ++ [source], ⟨h.running, h.mode, h.stepping, ⟨mode, observers, rfl⟩,
        fun hn => ?_, hfresh⟩, fun more left hl => ?_⟩
      · rw [hs] at hn
        cases hn
      · rwa [List.append_assoc] at hl
    · show unusedSources (s.sources ++ waiting (sources ++ [source])) = .ok _
      rw [hs, List.cons_append, unusedSources, if_neg (by simp [hfresh hf p rest hs])]

/-- The steps until nothing is in flight evaluate the sources that wait. -/
theorem finishes_run {fuel : Nat} (h : Ahead sources s t) (ht : runPending fuel t = .ok () u) :
    Finishes s sources u.visible := by
  induction fuel generalizing s t sources with
  | zero =>
    have hp := idle_of_runPending_zero ht
    rw [runPending_of_idle hp] at ht
    cases ht
    exact h.finishes_of_idle hp
  | succ fuel ih =>
    rw [runPending_succ] at ht
    split at ht
    · rename_i hp
      cases hr : checked Action.step t with
      | error f t' =>
        rw [hr] at ht
        cases ht
      | ok a t' =>
        rw [hr] at ht
        obtain ⟨v, rest, hv, hall⟩ := h.step hp hr
        simpa using hall [] _ (by simpa using ih hv ht)
    · rename_i hp
      cases ht
      exact h.finishes_of_idle (by simpa using hp)

/-- Calls lead to where the sources that wait and the ones they queue lead. -/
theorem finishes {calls : List QueueCall} {fuel : Nat} (h : Ahead sources s t)
    (ht : interleaved calls fuel t = .ok () u) :
    Finishes s (sources ++ QueueCall.sources calls) u.visible := by
  induction calls generalizing s t sources with
  | nil =>
    rw [QueueCall.sources, List.filterMap_nil, List.append_nil]
    cases fuel with
    | zero => cases ht
    | succ fuel =>
      rw [interleaved, stepUntilDone_eq] at ht
      exact h.finishes_run ht
  | cons c calls ih =>
    obtain ⟨_, t', hc, hcalls⟩ := exists_of_bind ht
    cases c with
    | queue source =>
      obtain ⟨v, rest, hv, hall⟩ := h.queue hc
      exact hall _ _ (ih hv hcalls)
    | step =>
      rw [QueueCall.run, discard_stepOnce] at hc
      split at hc
      · rename_i hp
        obtain ⟨v, rest, hv, hall⟩ := h.step hp hc
        exact hall _ _ (ih hv hcalls)
      · cases hc
        exact ih h hcalls

end Ahead

/-- In step mode sources may be queued at any time: if no call fails, the calls and the steps that
are left lead to where a run of each source leads, one after the other, and those runs succeed. -/
theorem ends_interleaved {left : Visible} (hp : s.hasPending = false) (hc : s.cancelled = false)
    (observers observers' : Observers) (calls : List QueueCall)
    (h : Ends (interleaved calls) (s.driven .step observers) (.done left)) :
    Ends (evaluateAll (QueueCall.sources calls)) (s.driven .run observers') (.done left) := by
  obtain ⟨fuel, h⟩ := h
  obtain ⟨hf, hs⟩ := Session.idle_of_hasPending hp
  have hahead : Ahead [] (s.driven .run observers') (s.driven .step observers) := by
    refine ⟨hc, nofun, rfl, ⟨.step, observers, ?_⟩, fun _ => ⟨hf, rfl⟩, fun _ p rest hn => ?_⟩
    · rw [waiting, List.map_nil, List.append_nil]
      rfl
    · rw [show (s.driven .run observers').sources = [] from hs] at hn
      cases hn
  obtain ⟨u, hu, rfl⟩ := exists_of_ending?_done h
  obtain ⟨fuel, t, v, ht, hv, hleft⟩ := hahead.finishes hu
  rw [List.nil_append] at hv
  rw [runPending_of_idle (show (s.driven .run observers').hasPending = false from hp)] at ht
  cases ht
  exact ⟨fuel, by rw [hv, ← hleft]; rfl⟩

/-- The second source arrives while a word of the first runs, and the third while the definition of
the second is open. -/
def callsAmidWords : List QueueCall :=
  [.queue ": A 1 2 ; A", .step, .step, .step, .step, .step, .step, .queue ": B + ;", .step, .step,
    .step, .step, .queue "B", .step]

def stackOf? (r : EStateM.Result Fault Session Unit) : Option DataStack :=
  match r with
  | .ok _ s => some s.stack
  | .error _ _ => none

theorem ends_interleaved_amidWords :
    let s := Session.ofConfig .standard
    s.hasPending = false ∧ s.cancelled = false ∧ ∃ left : Visible, left.stack = [.int 3] ∧
      Ends (interleaved callsAmidWords) (s.driven .step .none) (.done left) ∧
      Ends (evaluateAll [": A 1 2 ; A", ": B + ;", "B"]) (s.driven .run .none) (.done left) := by
  intro s
  have hstack : stackOf? (interleaved callsAmidWords 20 (s.driven .step .none)) =
      some [.int 3] := by
    simp only [callsAmidWords, interleaved, QueueCall.run, evaluate, processSource, enqueue,
      Pending.ofSource_eq 20 (by decide : ": A 1 2 ; A".toList.length < 20),
      Pending.ofSource_eq 20 (by decide : ": B + ;".toList.length < 20),
      Pending.ofSource_eq 20 (by decide : "B".toList.length < 20)]
    decide +kernel
  cases hr : interleaved callsAmidWords 20 (s.driven .step .none) with
  | error f t =>
    rw [hr] at hstack
    cases hstack
  | ok a t =>
    rw [hr] at hstack
    have hcalls : Ends (interleaved callsAmidWords) (s.driven .step .none) (.done t.visible) :=
      ⟨20, congrArg ending? hr⟩
    exact ⟨rfl, rfl, t.visible, Option.some.inj hstack, hcalls,
      ends_interleaved rfl rfl .none .none callsAmidWords hcalls⟩

end Action

end StackLang
