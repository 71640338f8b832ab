import StackLang.Proofs.Call.Running
import StackLang.Proofs.Words.Moves
import StackLang.Proofs.Call.Loops
import StackLang.Proofs.Definition.Directions

/-!
# The step that a loop is given

Control gets to an instruction from the one before it, or by a branch that lands there: a caller
that is gone back to stands right behind its call.  So where no branch lands at a `+LOOP` with a
literal right before it, its step is that literal, and the direction that the loop has recorded is
right.

* `Suspended`: every caller that waits stands right behind its call.
* `arrives_from_literal`: control gets behind a literal by pushing it.
* `Definition.steps_of_directed`: the direction of a loop is right if no `THEN` stands right before
  the `+LOOP`, and only then is every path to the `+LOOP` one through the literal.
-/

namespace StackLang

open Action ReturnStack

/-- The frame stands right behind a call. -/
def CallFrame.BehindCall (f : CallFrame) : Prop :=
  ∃ i x, f.next = i + 1 ∧ f.code[i]? = some x ∧ (x.op.callee? f.word).isSome = true

namespace Session

variable {s t : Session} {f g : CallFrame}

/-- The callers that wait stand right behind their calls. -/
def Suspended (s : Session) : Prop :=
  ∀ f ∈ callers s.returns.items, f.BehindCall

theorem suspended_of_callers (hs : s.Suspended)
    (h : ∀ f ∈ callers t.returns.items, f ∈ callers s.returns.items) : t.Suspended :=
  fun f hf => hs f (h f hf)

theorem Leaves.callers (h : Leaves s.returns t) :
    ReturnStack.callers s.returns.items =
      t.frame.toList ++ ReturnStack.callers t.returns.items := by
  rw [← callers_fromMarker, h.marker, callers_call]

theorem suspended_step (hs : s.Suspended) (h : step s = .ok () t) : t.Suspended := by
  cases hf : s.frame with
  | none =>
    rcases tokenEffect_step hf h with h | h
    · exact suspended_of_callers hs fun f hf => h.below.callers ▸ hf
    · refine suspended_of_callers hs fun f hf => ?_
      rwa [h.items, callers_call] at hf
  | some f =>
    obtain ⟨x, hx, hp⟩ := proceeds_step hf h
    cases hp with
    | goesOn _ below _ => exact suspended_of_callers hs fun f hf => below.callers ▸ hf
    | calls hc _ hop =>
      intro g hg
      rw [hc.items, callers_call, Option.toList_some, List.singleton_append, List.mem_cons] at hg
      rcases hg with rfl | hg
      · exact ⟨f.next, x, rfl, hx, hop⟩
      · exact hs g hg
    | leaves _ hl =>
      exact suspended_of_callers hs fun g hg => hl.callers ▸ List.mem_append_right _ hg

theorem suspended_of_play {config : Config} {moves : List Move}
    (h : play moves (ofConfig config) = .ok s) : s.Suspended := by
  refine play_induct (P := fun _ s => s.Suspended) (fun f hf => by cases hf)
    (fun before m u v hu hm ih => ?_) h
  cases hr : m.run u with
  | ok a w =>
    rw [hr] at hm
    cases hm
    by_cases hreset : m = .reset
    · subst hreset
      cases hr
      exact fun f hf => by cases hf
    · rcases step_or_same_of_move hreset hr with hstep | ⟨-, hsame⟩
      · exact suspended_step ih hstep
      · exact suspended_of_callers ih fun f hf => hsame ▸ hf
  | error fault w =>
    have hv := valid_play (valid_ofConfig config nofun) hu
    have ht := tracked_play (valid_ofConfig config nofun) (tracked_ofConfig config) hu
    obtain ⟨-, hfuel, -⟩ := raised_move ht hv.linked hr
    rw [hr] at hm
    cases fault with
    | breach b => cases hm
    | outOfFuel => exact (hfuel rfl).elim
    | script e =>
      cases hm
      have hchecked : ∃ p : Action Unit, checked p u = .error (.script e) v :=
        (error_of_move hr).elim (fun h => ⟨_, h.2⟩) fun h => ⟨_, h.2⟩
      obtain ⟨p, hp⟩ := hchecked
      obtain ⟨w, -, hw⟩ := error_of_checked hp
      rw [hw e rfl]
      exact fun f hf => by cases hf

/-- Where no branch lands, control comes from the instruction before.  If that one pushes a literal,
the literal lies on top of the stack. -/
theorem arrives_from_literal (hs : s.Suspended) (h : step s = .ok () t) (hg : t.frame = some g)
    {i : Nat} {l : Option Location} {v : Value} (hnext : g.next = i + 1)
    (hi : g.code[i]? = some ⟨l, .push v⟩)
    (hland : ∀ (j : Nat) (y : Instruction), g.code[j]? = some y →
      y.op.target? ≠ some (some g.next)) :
    s.frame = some { g with next := i } ∧ t.stack = v :: s.stack := by
  cases hf : s.frame with
  | none =>
    rcases tokenEffect_step hf h with h | h
    · rw [h.frame, hf] at hg
      cases hg
    · obtain ⟨g', hg', hzero⟩ := h.frame
      rw [hg] at hg'
      cases hg'
      omega
  | some f =>
    obtain ⟨x, hx, he⟩ := effect_step hf h
    cases he with
    | stays frame _ goes =>
      rw [hg] at frame
      cases frame
      obtain ⟨-, hj | ht⟩ := goes.next_or_target
      · obtain rfl : f.next = i := Nat.add_right_cancel (hj.symm.trans hnext)
        refine ⟨rfl, ?_⟩
        rw [show f.code[f.next]? = _ from hi] at hx
        cases hx
        obtain ⟨u, sources, hu, rfl⟩ := exists_of_step h
        rw [operation_of_frame hf, runInstruction_eq hi] at hu
        cases hu
        rfl
      · exact (hland _ x hx ht).elim
    | calls hc _ =>
      obtain ⟨g', hg', hzero⟩ := hc.frame
      rw [hg] at hg'
      cases hg'
      omega
    | leaves _ hl =>
      have hmem : g ∈ callers s.returns.items := by
        rw [hl.callers, hg]
        exact List.mem_append_left _ (List.mem_singleton_self g)
      obtain ⟨k, y, hk, hy, hcall⟩ := hs g hmem
      obtain rfl : k = i := Nat.add_right_cancel (hk.symm.trans hnext)
      rw [hi] at hy
      cases hy
      cases hcall

end Session

namespace Definition

open Session

theorem stepDirection_ne_unknown {v : Value} (h : v.stepDirection ≠ .unknown) :
    ∃ n, v.int? = some n ∧ v.stepDirection = if n < 0 then .descending else .ascending := by
  unfold Value.stepDirection at h ⊢
  cases hn : v.int? with
  | none =>
    rw [hn] at h
    exact (h rfl).elim
  | some n => exact ⟨n, rfl, rfl⟩

/-- A loop that `+LOOP` closes, in any definition that is accepted.  If no direction is recorded,
the loop counts up from the smaller bound.  If one is, then no branch lands at the `+LOOP` exactly
if no `THEN` stands right before it; and in that case the word before it is a literal with that
direction, and whenever a step leads to the `+LOOP`, in any session, it has just pushed that
literal. -/
theorem steps_of_directed {pre post : List (Option Location × BodyWord)} {l : Option Location}
    {word : Nat} {name : String} {location : Location} {code : Code} {d : Definition}
    (hok : (do build (pre ++ (l, .control .closePlusLoop) :: post); finish :
      Edit (Except Breach Code)) (opened word name location) = .ok (.ok code) d) :
    let q := BodyWord.instructions pre
    ∃ (p : Nat) (x : Instruction) (direction : LoopDirection),
      p < q ∧ code[q]? = some ⟨l, .loop .nextBy (some (p + 1))⟩ ∧
      code[p]? = some x ∧ x.op.direction? = some direction ∧ x.op.target? = some (some (q + 1)) ∧
      (direction = .unknown → ∀ start limit, loopBounds direction start limit =
        if limit < start then ⟨limit, start⟩ else ⟨start, limit⟩) ∧
      (direction ≠ .unknown →
        ((∀ (i : Nat) (y : Instruction), code[i]? = some y → y.op.target? ≠ some (some q)) ↔
          ∀ l', pre.getLast? ≠ some (l', .control .closeThen)) ∧
        ((∀ l', pre.getLast? ≠ some (l', .control .closeThen)) →
          ∃ l' v n, pre.getLast? = some (l', .literal v) ∧ v.int? = some n ∧
            direction = (if n < 0 then .descending else .ascending) ∧
            ∀ config moves s t g, play moves (ofConfig config) = .ok s → step s = .ok () t →
              t.frame = some g → g.code = code → g.next = q →
                s.frame = some { g with next := q - 1 } ∧ t.stack = v :: s.stack)) := by
  obtain ⟨p, x, direction, hlt, hq, hp, hdirection, htarget, hcases⟩ := directed_of_accepted hok
  refine ⟨p, x, direction, hlt, hq, hp, hdirection, htarget, fun hd => hd ▸ fun _ _ => rfl,
    fun hd => ?_⟩
  rcases hcases hd with ⟨l', hlast, i, y, hy, ht⟩ | ⟨l', v, hlast, rfl, hlt', hpush, hland⟩
  · exact ⟨⟨fun h => (h i y hy ht).elim, fun h => (h l' hlast).elim⟩, fun h => (h l' hlast).elim⟩
  · obtain ⟨n, hn, hdir⟩ := stepDirection_ne_unknown hd
    refine ⟨⟨fun _ l'' hl => ?_, fun _ => hland⟩, fun _ => ⟨l', v, n, hlast, hn, hdir, ?_⟩⟩
    · rw [hlast] at hl
      cases hl
    · rintro config moves s t g hs ht hg rfl hnext
      exact arrives_from_literal (suspended_of_play hs) ht hg (by omega) hpush (hnext ▸ hland)

/-- The frame and the stack behind a step. -/
def arrival? (s : Session) : Option (Option CallFrame × DataStack) :=
  match step s with
  | .ok _ t => some (t.frame, t.stack)
  | .error _ _ => none

/-- A run that leads to an arrival has the two sessions of its last step. -/
theorem exists_of_arrival? {moves : List Move} {frame : Option CallFrame} {stack : DataStack}
    (h : (play moves (ofConfig .standard)).toOption.bind arrival? = some (frame, stack)) :
    ∃ s t, play moves (ofConfig .standard) = .ok s ∧ step s = .ok () t ∧ t.frame = frame ∧
      t.stack = stack := by
  obtain ⟨s, hs, h⟩ := Option.bind_eq_some_iff.1 h
  unfold arrival? at h
  cases ht : step s with
  | error fault t =>
    rw [ht] at h
    cases h
  | ok a t =>
    rw [ht] at h
    cases h
    exact ⟨s, t, eq_ok_of_toOption hs, ht, rfl, rfl⟩

/-- The loop of `0 10 DO 2 +LOOP` counts up, and its step is 2 when the `+LOOP` is reached. -/
theorem steps_of_directed_two :
    let place (column : Nat) : Option Location := some ⟨inputPath, 1, column⟩
    let pre : List (Option Location × BodyWord) := [(place 5, .literal (.int 0)),
      (place 7, .literal (.int 10)), (place 10, .control .openDo), (place 13, .literal (.int 2))]
    let code : Code := #[⟨place 5, .push (.int 0)⟩, ⟨place 7, .push (.int 10)⟩,
      ⟨place 10, .loop (.start .ascending) (some 5)⟩, ⟨place 13, .push (.int 2)⟩,
      ⟨place 15, .loop .nextBy (some 3)⟩, ⟨none, .exit⟩]
    let moves := Move.enqueue inputPath ": W 0 10 DO 2 +LOOP ; W" :: List.replicate 11 .step
    (∃ d, (do build (pre ++ [(place 15, .control .closePlusLoop)]); finish :
        Edit (Except Breach Code)) (opened 96 "W" ⟨inputPath, 1, 3⟩) = .ok (.ok code) d) ∧
      ∃ s t g, play moves (ofConfig .standard) = .ok s ∧ step s = .ok () t ∧ t.frame = some g ∧
        g.code = code ∧ g.next = 4 ∧
        s.frame = some { g with next := 3 } ∧ t.stack = .int 2 :: s.stack := by
  intro place pre code moves
  have hok : (do build (pre ++ [(place 15, .control .closePlusLoop)]); finish :
      Edit (Except Breach Code)) (opened 96 "W" ⟨inputPath, 1, 3⟩) =
        .ok (.ok code) { opened 96 "W" ⟨inputPath, 1, 3⟩ with code := #[] } := by
    simp [pre, code, build, bind_apply, BodyWord.compileStep, ControlWord.compileStep, opened,
      emit_discard_eq, compileDo_eq, compileLoop_eq, finish_eq, Code.retargetAll, Code.settle,
      settleLoop, stepDirection, Value.int?, Value.number?, strayTarget?, Op.target?]
  have hrun : (play moves (ofConfig .standard)).toOption.bind arrival? =
      some (some ⟨96, "W", code, 4⟩, [.int 2]) := by
    rw [play, show Move.run (.enqueue inputPath ": W 0 10 DO 2 +LOOP ; W") (ofConfig .standard) =
      .ok () { ofConfig .standard with
        sources := [] ++ [.ofSource inputPath ": W 0 10 DO 2 +LOOP ; W"] } from rfl]
    rw [Pending.ofSource_eq 50 (by decide)]
    decide +kernel
  obtain ⟨s, t, hs, ht, hg, -⟩ := exists_of_arrival? hrun
  obtain ⟨p, x, direction, -, hq, hp, hdirection, -, -, hmarked⟩ := steps_of_directed hok
  cases hq
  cases hp
  cases hdirection
  obtain ⟨-, hpath⟩ := hmarked fun h => by cases h
  obtain ⟨l', v, n, hlast, -, -, hpath⟩ := hpath fun l' h => by cases h
  cases hlast
  exact ⟨⟨_, hok⟩, s, t, _, hs, ht, hg, rfl, rfl, hpath _ moves s t _ hs ht hg rfl rfl⟩

/-- Behind an `IF` with two arms the direction is that of the literal in the second one, also for
the step that the first arm has pushed: the loop is marked as counting down, and its step is 2. -/
theorem play_literal_of_other_arm :
    let moves := Move.enqueue inputPath ": W 0 10 DO TRUE IF 2 ELSE -1 THEN +LOOP ; W" ::
      List.replicate 19 .step
    ∃ s t g, play moves (ofConfig .standard) = .ok s ∧ step s = .ok () t ∧ t.frame = some g ∧
      (g.code[g.next]?.map (·.op)) = some (.loop .nextBy (some 3)) ∧
      (g.code[2]?.map (·.op)) = some (.loop (.start .descending) (some 9)) ∧
      (g.code[g.next - 1]?.map (·.op)) = some (.push (.int (-1))) ∧
      t.stack = [.int 2] := by
  intro moves
  have hrun : ((play moves (ofConfig .standard)).toOption.bind arrival?).map (fun (f, stack) =>
      (f.map fun g => [g.next, 2, g.next - 1].map (g.code[·]?.map (·.op)), stack)) =
      some (some [some (.loop .nextBy (some 3)), some (.loop (.start .descending) (some 9)),
        some (.push (.int (-1)))], [.int 2]) := by
    rw [play, show Move.run (.enqueue inputPath ": W 0 10 DO TRUE IF 2 ELSE -1 THEN +LOOP ; W")
      (ofConfig .standard) = .ok () { ofConfig .standard with
        sources := [] ++
          [.ofSource inputPath ": W 0 10 DO TRUE IF 2 ELSE -1 THEN +LOOP ; W"] } from rfl]
    rw [Pending.ofSource_eq 50 (by decide)]
    decide +kernel
  obtain ⟨⟨frame, stack⟩, harrival, heq⟩ := Option.map_eq_some_iff.1 hrun
  obtain ⟨s, t, hs, ht, hframe, rfl⟩ := exists_of_arrival? harrival
  rw [Prod.mk.injEq, Option.map_eq_some_iff] at heq
  obtain ⟨⟨g, rfl, hops⟩, hstack⟩ := heq
  simp only [List.map_cons, List.map_nil, List.cons.injEq, and_true] at hops
  exact ⟨s, t, g, hs, ht, hframe, hops.1, hops.2.1, hops.2.2, hstack⟩

end Definition

end StackLang
