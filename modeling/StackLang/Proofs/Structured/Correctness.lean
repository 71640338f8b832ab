import StackLang.Proofs.Evaluation.Ending
import StackLang.Proofs.Structured.Simulation

/-!
# The code means what the body means

Running the code that is built for a well-nested body, to the end of the call, ends as the direct
evaluation of the body does: in the same way, if one of them ends, and otherwise not at all.

* `Block.ends_runCall_iff`: the two agree for a body that stands for a whole word.
-/

namespace StackLang

open Action Definition

variable {depth fuel : Nat} {s t u : Session}

/-- More fuel does not change how a run ends. -/
theorem runWhile_add {r : EStateM.Result Fault Session Unit} (h : runWhile depth fuel s = r)
    (hr : ∀ t, r ≠ .error .outOfFuel t) (more : Nat) : runWhile depth (more + fuel) s = r := by
  induction fuel generalizing s with
  | zero =>
    rw [runWhile_zero] at h
    split at h
    · exact (hr s h.symm).elim
    · rename_i hd
      rw [runWhile_of_lt (Nat.not_le.1 hd)]
      exact h
  | succ fuel ih =>
    rw [runWhile_succ] at h
    rw [← Nat.add_assoc, runWhile_succ]
    split at h
    · rename_i hd
      rw [if_pos hd]
      cases ho : operation s with
      | error e t =>
        rw [ho] at h
        exact h
      | ok a t =>
        rw [ho] at h
        exact ih h
    · rename_i hd
      rw [if_neg hd]
      exact h

theorem checked_eq {α : Type} {p q : Action α} (h : p s = q s) : checked p s = checked q s := by
  unfold checked
  rw [h]

theorem ending?_runWhile_add {x : Ending} (h : ending? (checked (runWhile depth fuel) s) = some x)
    (more : Nat) : ending? (checked (runWhile depth (more + fuel)) s) = some x := by
  rw [← h]
  refine congrArg _ (checked_eq (runWhile_add rfl (fun t ht => ?_) more))
  unfold checked at h
  rw [ht] at h
  cases h

theorem eq_outOfFuel_of_ending? {α : Type} {p : Action α}
    (h : ending? (checked p s) = none) : ∃ t, p s = .error .outOfFuel t := by
  unfold checked at h
  cases hp : p s with
  | ok a t =>
    rw [hp] at h
    cases h
  | error e t =>
    rw [hp] at h
    cases e with
    | outOfFuel => exact ⟨t, rfl⟩
    | script e => cases h
    | breach b => cases h

/-- An error drops all that was different. -/
theorem Beside.visible_abort (h : Beside t u) (e : ScriptError) :
    (u.abort e).visible = (t.abort e).visible := by
  obtain ⟨frame, returns, hl, rfl⟩ := h
  unfold Session.visible Session.abort ReturnStack.clear
  dsimp only
  rw [hl]
  rfl

/-- Where the evaluation ends, so does the machine. -/
theorem Mirrors.ends {p : Action Unit} {x : Ending}
    (h : Mirrors depth fuel s (fun _ t u => u = t ∧ t.callDepth < depth) (p s))
    (hx : ending? (checked p s) = some x) :
    Ends (fun fuel => checked (Action.runWhile depth fuel)) s x := by
  cases hp : p s with
  | ok a t =>
    rw [hp] at h
    obtain ⟨k, u, hk, rfl, hlt⟩ := h
    refine ⟨k + 0, ?_⟩
    dsimp only
    rw [checked_ok ((hk 0).trans (runWhile_of_lt hlt 0)), ← hx, checked_ok hp]
  | error e t =>
    rw [hp] at h
    cases e with
    | outOfFuel =>
      unfold checked at hx
      rw [hp] at hx
      cases hx
    | script e =>
      obtain ⟨k, u, hu, hb⟩ := h
      refine ⟨k, ?_⟩
      dsimp only
      rw [checked_script hu, ← hx, checked_script hp, ending?, ending?, hb.visible_abort]
    | breach b =>
      obtain ⟨k, u, hu, hb⟩ := h
      refine ⟨k, ?_⟩
      unfold checked at hx ⊢
      rw [hp] at hx
      dsimp only
      rw [hu]
      exact hx

namespace Block

variable {b : Block} {f : CallFrame}

/-- The code of a word that is about to run ends as the direct evaluation of the word. -/
theorem ends_runCall_iff (hb : b.WellNested 0) (hf : s.frame = some f) (hcode : f.code = b.code)
    (hnext : f.next = 0) (x : Ending) :
    Ends (fun fuel => checked (runCall fuel)) s x ↔
      Ends (fun fuel => checked (b.evalWord fuel)) s x := by
  have hends {fuel : Nat} {y : Ending} (hy : ending? (checked (b.evalWord fuel) s) = some y) :
      Ends (fun fuel => checked (runWhile s.callDepth fuel)) s y :=
    (mirrors_evalWord hb hf hcode hnext).ends hy
  constructor
  · rintro ⟨fuel, hx⟩
    have hx : ending? (checked (runWhile s.callDepth fuel) s) = some x := hx
    -- Given more fuel than the machine needs, the evaluation cannot run out of it.
    have hm : Mirrors s.callDepth fuel s _ (b.evalWord (fuel + 1) s) :=
      mirrors_evalWord hb hf hcode hnext
    have hend : ending? (checked (b.evalWord (fuel + 1)) s) ≠ none := by
      intro hn
      obtain ⟨t, ht⟩ := eq_outOfFuel_of_ending? hn
      rw [ht] at hm
      obtain ⟨u, hu⟩ := hm
      unfold checked at hx
      rw [hu] at hx
      cases hx
    obtain ⟨y, hy⟩ := Option.ne_none_iff_exists'.1 hend
    have hmachine : Ends (fun fuel => checked (runWhile s.callDepth fuel)) s x := ⟨fuel, hx⟩
    have hxy : x = y := by
      refine Ends.unique ?_ hmachine (hends hy)
      exact fun fuel x h more => ending?_runWhile_add h more
    exact ⟨fuel + 1, hxy ▸ hy⟩
  · rintro ⟨fuel, hx⟩
    exact hends hx

/-- A well-nested body is accepted, and the code that is finished for it runs, from its first
instruction to the end of the call, as the body is evaluated directly: from any session, and to the
same stacks, memory and output or to the same error. -/
theorem ends_compiled_iff (hb : b.WellNested 0) (word : Nat) (name : String)
    (location : Location) :
    ∃ code d, (do b.compile; finish : Edit (Except Breach Code)) (.opened word name location) =
        .ok (.ok code) d ∧
      ∀ s f, s.frame = some f → f.code = code → f.next = 0 → ∀ x,
        Ends (fun fuel => checked (runCall fuel)) s x ↔
          Ends (fun fuel => checked (b.evalWord fuel)) s x :=
  ⟨b.code, .opened word name location, finish_compile hb word name location,
    fun _ _ hf hcode hnext x => ends_runCall_iff hb hf hcode hnext x⟩

/-- The data stack that an evaluation leaves, if it succeeds. -/
def stackLeft? {α : Type} : EStateM.Result Fault Session α → Option DataStack
  | .ok _ t => some t.stack
  | .error _ _ => none

/-- The word `DO I I 2 = IF LEAVE THEN LOOP`, called with 4 as the limit and 0 as the start. -/
theorem ends_compiled_leave :
    let b : Block := .counted false none (.seq (.index none) (.seq (.index none)
      (.seq (.literal none (.int 2)) (.seq (.call none true 37)
        (.ifThen none (.leave none)))))) none
    let s : Session := { Session.ofConfig .standard with
      stack := [.int 0, .int 4]
      returns := ⟨[.call none], 4096, 1, rfl⟩
      frame := some ⟨96, "COUNT", b.code, 0⟩ }
    b.WellNested 0 ∧ ∃ left : Visible, left.stack = [.int 2, .int 1, .int 0] ∧
      Ends (fun fuel => checked (b.evalWord fuel)) s (.done left) ∧
      Ends (fun fuel => checked (runCall fuel)) s (.done left) := by
  intro b s
  have hb : b.WellNested 0 := by decide
  have hstack : stackLeft? (checked (b.evalWord 5) s) = some [.int 2, .int 1, .int 0] := by
    decide +kernel
  obtain ⟨code, d, hc, hends⟩ := ends_compiled_iff hb 96 "COUNT" .unspecified
  rw [finish_compile hb] at hc
  obtain rfl : b.code = code := by
    cases hc
    rfl
  cases hr : checked (b.evalWord 5) s with
  | error f t =>
    rw [hr] at hstack
    cases hstack
  | ok a t =>
    rw [hr] at hstack
    have heval : Ends (fun fuel => checked (b.evalWord fuel)) s (.done t.visible) :=
      ⟨5, congrArg ending? hr⟩
    exact ⟨hb, t.visible, Option.some.inj hstack, heval, (hends s _ rfl rfl rfl _).2 heval⟩

end Block

end StackLang
