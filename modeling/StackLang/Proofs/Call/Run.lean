import StackLang.Proofs.Call.Effects
import StackLang.Proofs.Session.Moves

/-!
# The run of a call

While a call is in flight, the return stack holds its marker and what was there before it, and above
that one marker for each call that has been made since.  Every frame in between, and the one that
runs, got where it is by the instructions of its own code, whatever the words that it called did to
the return stack.

* `InCall`: the sessions that moves lead to while a call is in flight.
* `Within`: what holds of each of them, given what a frame has to fit.
* `Within.step`, `InCall.within`: one step keeps it up to the end of the call, and so does a run.
-/

namespace StackLang

open Action ReturnStack

/-- The sessions that moves lead to from `s`, with `depth` calls or more in flight up to the last of
the moves.  An embedder may do anything in between, but not drop the evaluation. -/
inductive InCall (depth : Nat) (s : Session) : Session → Prop
  | start : InCall depth s s
  | move {t u : Session} {m : Move} (h : InCall depth s t) (hd : depth ≤ t.callDepth)
      (hm : m ≠ .reset) (hu : m.run t = .ok () u) : InCall depth s u

/-- A word with this code has just been called. -/
structure Session.Entered (code : Code) (s : Session) : Prop where
  frame : ∃ f, s.frame = some f ∧ f.code = code ∧ f.next = 0
  marker : ∃ caller below, s.returns.items = .call caller :: below

/-- What fits a frame and the number of loops that it has open holds at the start of a word, and
wherever control goes from there. -/
structure Followed (Fits : CallFrame → Nat → Prop) : Prop where
  start : ∀ {g : CallFrame}, g.next = 0 → Fits g 0
  goes : ∀ {f : CallFrame} {x : Instruction} {n j m : Nat}, Fits f n →
    f.code[f.next]? = some x → x.op.Goes f.next n j m → Fits { f with next := j } m

/-- The session behind a number of steps that all succeed, with `depth` calls in flight before each
of them. -/
def runSteps? (depth : Nat) : (count : Nat) → Session → Option Session
  | 0, s => some s
  | count + 1, s =>
    if depth ≤ s.callDepth then
      match Move.step.run s with
      | .ok _ t => runSteps? depth count t
      | .error _ _ => none
    else none

variable {Fits : CallFrame → Nat → Prop} {caller : Option CallFrame} {below : List ReturnItem}

/-- The items are those of a call that goes back to `caller`, with calls on top of it whose callers
all fit. -/
inductive Waiting (Fits : CallFrame → Nat → Prop) (caller : Option CallFrame)
    (below : List ReturnItem) : List ReturnItem → Prop
  | base : Waiting Fits caller below (.call caller :: below)
  | value {v : Value} {items : List ReturnItem} (h : Waiting Fits caller below items) :
    Waiting Fits caller below (.value v :: items)
  | loop {x : LoopFrame} {items : List ReturnItem} (h : Waiting Fits caller below items) :
    Waiting Fits caller below (.loop x :: items)
  | call {f : CallFrame} {items : List ReturnItem} (hf : Fits f (loopsOf items).length)
      (h : Waiting Fits caller below items) : Waiting Fits caller below (.call (some f) :: items)

namespace Waiting

variable {items items' rest : List ReturnItem}

theorem suffix (h : Waiting Fits caller below items) : .call caller :: below <:+ items := by
  induction h with
  | base => exact List.suffix_rfl
  | value h ih | loop h ih | call hf h ih => exact ih.trans (List.suffix_cons _ _)

theorem markers_lt (h : Waiting Fits caller below items) : markers below < markers items := by
  obtain ⟨above, rfl⟩ := h.suffix
  exact markers_above above caller below

/-- What lies above the nearest marker does not matter. -/
theorem fromMarker_iff :
    Waiting Fits caller below (fromMarker items) ↔ Waiting Fits caller below items := by
  constructor
  · intro h
    induction items with
    | nil => exact h
    | cons item items ih =>
      cases item with
      | value v => exact .value (ih h)
      | loop x => exact .loop (ih h)
      | call c => exact h
  · intro h
    induction h with
    | base => exact .base
    | value h ih | loop h ih => exact ih
    | call hf h ih => exact .call hf h

theorem congr (h : Waiting Fits caller below items)
    (hm : fromMarker items' = fromMarker items) : Waiting Fits caller below items' :=
  fromMarker_iff.1 (hm ▸ fromMarker_iff.2 h)

/-- The nearest marker is that of the call, or it holds a frame that fits. -/
theorem nearest {c : Option CallFrame} (h : Waiting Fits caller below items)
    (hm : fromMarker items = .call c :: rest) :
    (c = caller ∧ rest = below) ∨
      ∃ f, c = some f ∧ Fits f (loopsOf rest).length ∧ Waiting Fits caller below rest := by
  have h' := fromMarker_iff.2 h
  rw [hm] at h'
  cases h' with
  | base => exact .inl ⟨rfl, rfl⟩
  | call hf h => exact .inr ⟨_, rfl, hf, h⟩

end Waiting

/-- A call is in flight that goes back to `caller` and to the items `below`; the frames since then
fit, and so does the one that runs. -/
structure Within (Fits : CallFrame → Nat → Prop) (caller : Option CallFrame)
    (below : List ReturnItem) (s : Session) : Prop where
  running : ∃ f, s.frame = some f ∧ Fits f s.returns.openLoops
  waiting : Waiting Fits caller below s.returns.items

/-- The call is over, and its caller goes on. -/
structure Session.BackAt (caller : Option CallFrame) (below : List ReturnItem) (s : Session) :
    Prop where
  frame : s.frame = caller
  items : s.returns.items = below

variable {s t u : Session}

theorem Session.BackAt.callDepth (h : s.BackAt caller below) : s.callDepth = markers below :=
  congrArg markers h.items

theorem Within.callDepth (h : Within Fits caller below s) : markers below < s.callDepth :=
  h.waiting.markers_lt

/-- A call has just been made. -/
theorem Session.Calls.within (hF : Followed Fits) {r : ReturnStack}
    (h : Session.Calls caller r t) : Within Fits caller r.items t where
  running := by
    obtain ⟨g, hg, hnext⟩ := h.frame
    refine ⟨g, hg, ?_⟩
    unfold openLoops
    rw [h.items]
    exact hF.start hnext
  waiting := by
    rw [h.items]
    exact .base

theorem Session.Entered.exists_within {code : Code} (hF : Followed Fits) (h : s.Entered code) :
    ∃ caller below, s.returns.items = .call caller :: below ∧ Within Fits caller below s := by
  obtain ⟨f, hf, -, hnext⟩ := h.frame
  obtain ⟨caller, below, hi⟩ := h.marker
  refine ⟨caller, below, hi, ⟨f, hf, ?_⟩, ?_⟩
  · unfold openLoops
    rw [hi]
    exact hF.start hnext
  · rw [hi]
    exact .base

/-! ## One step -/

/-- A step stays within the call, or ends it. -/
theorem Within.step (hF : Followed Fits) (hs : Within Fits caller below s)
    (h : Action.step s = .ok () t) :
    t.returns.limit = s.returns.limit ∧ (Within Fits caller below t ∨ t.BackAt caller below) := by
  obtain ⟨f, hf, hfits⟩ := hs.running
  obtain ⟨x, hx, he⟩ := Session.effect_step hf h
  cases he with
  | stays frame hb goes =>
    exact ⟨hb.limit, .inl ⟨⟨_, frame, hF.goes hfits hx goes⟩, hs.waiting.congr hb.marker⟩⟩
  | calls hc goes =>
    refine ⟨hc.limit, .inl ⟨(hc.within hF).running, ?_⟩⟩
    rw [hc.items]
    exact .call (hF.goes hfits hx goes) hs.waiting
  | leaves hop hl =>
    rcases hs.waiting.nearest hl.marker with ⟨hc, hi⟩ | ⟨g, hg, hfits, hw⟩
    · exact ⟨hl.limit, .inr ⟨hc, hi⟩⟩
    · exact ⟨hl.limit, .inl ⟨⟨g, hg, hfits⟩, hw⟩⟩

/-! ## A run -/

/-- A move that does not drop the evaluation is a step, or it changes nothing about the calls. -/
theorem step_or_same_of_move {m : Move} (hm : m ≠ .reset) (h : m.run s = .ok () t) :
    Action.step s = .ok () t ∨ t.frame = s.frame ∧ t.returns = s.returns := by
  cases m with
  | step =>
    rcases step_of_run_step h with ⟨-, h⟩ | ⟨-, rfl⟩
    · exact .inl h
    · exact .inr ⟨rfl, rfl⟩
  | dropUsedSources =>
    obtain ⟨sources, rfl, -⟩ := Session.exists_of_dropUsedSources (eq_ok_of_checked h)
    exact .inr ⟨rfl, rfl⟩
  | reset => exact (hm rfl).elim
  | enqueue path source =>
    cases h
    exact .inr ⟨rfl, rfl⟩
  | setMode mode | setCancelled cancelled | observe observers =>
    cases h
    exact .inr ⟨rfl, rfl⟩
  | takeOutput | mark | resetDefinitions =>
    cases h
    exact .inr ⟨rfl, rfl⟩

theorem InCall.trans {depth : Nat} (h : InCall depth s t) (h' : InCall depth t u) :
    InCall depth s u := by
  induction h' with
  | start => exact h
  | move _ hd hm hu ih => exact ih.move hd hm hu

theorem inCall_of_runSteps? {depth count : Nat} (h : runSteps? depth count s = some t) :
    InCall depth s t := by
  induction count generalizing s with
  | zero =>
    cases h
    exact .start
  | succ count ih =>
    rw [runSteps?] at h
    split at h
    · rename_i hd
      cases hr : Move.step.run s with
      | ok a u =>
        rw [hr] at h
        exact (InCall.start.move (m := .step) hd nofun hr).trans (ih h)
      | error e u =>
        rw [hr] at h
        cases h
    · cases h

/-- A run that starts within a call stays within it, up to its end. -/
theorem InCall.within {depth : Nat} (hF : Followed Fits) (h : InCall depth s t)
    (hd : markers below < depth) (hs : Within Fits caller below s) :
    t.returns.limit = s.returns.limit ∧ (Within Fits caller below t ∨ t.BackAt caller below) := by
  induction h with
  | start => exact ⟨rfl, .inl hs⟩
  | move h hdt hm hu ih =>
    obtain ⟨hlimit, ht | ht⟩ := ih
    · rcases step_or_same_of_move hm hu with hstep | ⟨hf, hr⟩
      · obtain ⟨hl, hu⟩ := ht.step hF hstep
        exact ⟨hl.trans hlimit, hu⟩
      · refine ⟨hr ▸ hlimit, .inl ⟨?_, hr ▸ ht.waiting⟩⟩
        rw [hf, hr]
        exact ht.running
    · rw [ht.callDepth] at hdt
      omega

/-- A frame that runs while a word is in flight fits. -/
theorem InCall.fits {code : Code} (hF : Followed Fits) (hs : s.Entered code)
    (h : InCall s.callDepth s t) (hd : s.callDepth ≤ t.callDepth) {g : CallFrame}
    (hg : t.frame = some g) : Fits g t.returns.openLoops := by
  obtain ⟨caller, below, hi, hw⟩ := hs.exists_within hF
  rcases (h.within hF hw.callDepth hw).2 with ht | ht
  · obtain ⟨f, hf, hfits⟩ := ht.running
    rw [hg] at hf
    cases hf
    exact hfits
  · have := hw.callDepth
    have := ht.callDepth
    omega

end StackLang
