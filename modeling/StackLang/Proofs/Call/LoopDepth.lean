import StackLang.Proofs.Call.Failures
import StackLang.Proofs.Call.Run
import StackLang.Proofs.Definition.Levels

/-!
# Counted loops while a word runs

The code of a body without `UNLOOP` has the levels of its layout, and control agrees with them.  So
at each instruction of it just as many loops of the running call are open as the instruction has
around it in the body, whatever lies between their frames, and wherever the call was made.  A word
that works on a loop finds one.

* `followed_atLevel`: the number of open loops is the level of the instruction.
* `cause_of_loopsNeeded`: with enough of them, no operation on loops complains that one is missing.
* `Definition.openLoops_of_accepted`: so it is for every body that is accepted.
-/

namespace StackLang

open Action

/-- If the frame runs this code, the number of loops that it has open is the level of its next
instruction. -/
def AtLevel (code : Code) (levels : List Nat) (f : CallFrame) (n : Nat) : Prop :=
  f.code = code → levels[f.next]? = some n

theorem followed_atLevel {code : Code} {levels : List Nat} (hc : code.Leveled levels)
    (hstart : levels[0]? = some 0) : Followed (AtLevel code levels) where
  start := by
    intro g hnext _
    rw [hnext]
    exact hstart
  goes := by
    intro f x n j m h hx hg hf
    exact hc.goes (hf ▸ hx) (h hf) hg

/-- An operation on loops that has enough of them fails for another reason. -/
theorem cause_of_loopsNeeded {t u : Session} {g : CallFrame} {x : Instruction} {e : ScriptError}
    (hg : t.frame = some g) (hx : g.code[g.next]? = some x) (hop : 0 < x.op.loopsNeeded)
    (hn : x.op.loopsNeeded ≤ t.returns.openLoops) (h : step t = .error (.script e) u) :
    ∀ opener closer, e.cause ≠ .unmatched opener closer := by
  rcases Session.error_of_step h with he | ho | ⟨v, cause, ho, hv, -⟩
  · cases he
    exact fun _ _ => nofun
  · cases Session.failure_of_operation hg hx ho with
    | value h => exact h
    | loop h => omega
    | call hcall _ =>
      cases hxop : x.op with
      | callBuiltin _ | callWord _ | recurse =>
        rw [hxop] at hop
        cases hop
      | _ =>
        rw [hxop] at hcall
        cases hcall
  · -- The word goes on, so that no source has come to its end.
    obtain ⟨y, hy, heffect⟩ := Session.effect_operation hg ho
    rw [hx] at hy
    cases hy
    cases heffect with
    | stays frame _ _ =>
      rw [hv] at frame
      cases frame
    | calls hcall _ =>
      obtain ⟨g', hg', -⟩ := hcall.frame
      rw [hv] at hg'
      cases hg'
    | leaves hexit _ =>
      rw [hexit] at hop
      cases hop

namespace Definition

/-- Whenever an instruction of a body without `UNLOOP` is about to run, as many loops of its call
are open as there are counted loops around it in the body.  So an operation on loops may fail for
want of a value or because of a cancellation, but never for want of a loop. -/
theorem openLoops_of_accepted {ws : List (Option Location × BodyWord)} {word : Nat} {name : String}
    {location : Location} {code : Code} {d : Definition}
    (hws : ∀ x ∈ ws, x.2 ≠ .control .unloop)
    (hok : (do build ws; finish : Edit (Except Breach Code)) (opened word name location) =
      .ok (.ok code) d) :
    let layout := BodyWord.layout 0 ws ++ [(none, 0)]
    code.places = layout.map Prod.fst ∧
      ∀ s t g, s.Entered code → InCall s.callDepth s t → s.callDepth ≤ t.callDepth →
        t.frame = some g → g.code = code →
          (layout.map Prod.snd)[g.next]? = some t.returns.openLoops ∧
            ∀ x, code[g.next]? = some x → 0 < x.op.loopsNeeded →
              ∀ e u, step t = .error (.script e) u →
                ∀ opener closer, e.cause ≠ .unmatched opener closer := by
  intro layout
  obtain ⟨hplaces, hleveled⟩ := leveled_of_accepted hws hok
  refine ⟨hplaces, fun s t g hs h hd hg hcode => ?_⟩
  have hstart : (layout.map Prod.snd)[0]? = some 0 := by
    rw [List.getElem?_map, ← List.head?_eq_getElem?, List.head?_append]
    cases hl : (BodyWord.layout 0 ws).head? with
    | none => rfl
    | some x => exact congrArg some (BodyWord.head_layout 0 ws x hl)
  have hlevel := h.fits (followed_atLevel hleveled hstart) hs hd hg hcode
  refine ⟨hlevel, fun x hx hop e u hstep => ?_⟩
  exact cause_of_loopsNeeded hg (hcode ▸ hx) hop (hleveled.needs hx hlevel) hstep

/-- In `DO 7 >R 9 8 ?DO J LEAVE LOOP LOOP`, called with 0 as the start and 3 as the limit, two loops
are open when `J` is about to run, with a value that was put aside between their frames. -/
theorem openLoops_of_accepted_nested :
    let ws : List (Option Location × BodyWord) := [(none, .control .openDo),
      (none, .literal (.int 7)), (none, .call true 17), (none, .literal (.int 9)),
      (none, .literal (.int 8)), (none, .control .openQueryDo), (none, .control .outerIndex),
      (none, .control .leave), (none, .control .closeLoop), (none, .control .closeLoop)]
    let code : Code := #[⟨none, .loop (.start .ascending) (some 10)⟩, ⟨none, .push (.int 7)⟩,
      ⟨none, .callBuiltin 17⟩, ⟨none, .push (.int 9)⟩, ⟨none, .push (.int 8)⟩,
      ⟨none, .loop (.startUnlessEqual .ascending) (some 9)⟩, ⟨none, .loopIndex 1⟩,
      ⟨none, .loop .leave (some 9)⟩, ⟨none, .loop .next (some 6)⟩, ⟨none, .loop .next (some 1)⟩,
      ⟨none, .exit⟩]
    let s : Session := { Session.ofConfig .standard with
      stack := [.int 0, .int 3]
      returns := ⟨[.call none], 4096, 1, rfl⟩
      frame := some ⟨96, "PAIRS", code, 0⟩ }
    (∀ x ∈ ws, x.2 ≠ .control .unloop) ∧
      (∃ d, (do build ws; finish : Edit (Except Breach Code)) (opened 96 "PAIRS" .unspecified) =
        .ok (.ok code) d) ∧
      ∃ t g, s.Entered code ∧ InCall s.callDepth s t ∧ s.callDepth ≤ t.callDepth ∧
        t.frame = some g ∧ g.code = code ∧ code[g.next]? = some ⟨none, .loopIndex 1⟩ ∧
        t.returns.items.length = 4 ∧ t.returns.openLoops = 2 ∧
        ((BodyWord.layout 0 ws ++ [(none, 0)]).map Prod.snd)[g.next]? =
          some t.returns.openLoops ∧
          ∀ e u, step t = .error (.script e) u →
            ∀ opener closer, e.cause ≠ .unmatched opener closer := by
  intro ws code s
  have hws : ∀ x ∈ ws, x.2 ≠ .control .unloop := by decide
  have hok : (do build ws; finish : Edit (Except Breach Code)) (opened 96 "PAIRS" .unspecified) =
      .ok (.ok code) { opened 96 "PAIRS" .unspecified with code := #[] } := by
    simp [ws, code, build, bind_apply, BodyWord.compileStep, ControlWord.compileStep, opened,
      emit_discard_eq, compileDo_eq, compileLoop_eq, compileLeave_eq, compileLoopIndex_eq,
      finish_eq, loopDepth, Construct.isCounted, List.countP_cons, addLeave?, Code.retargetAll,
      Code.retarget, Code.settle, settleLoop, Op.setTarget, strayTarget?, Op.target?]
  have hs : s.Entered code := ⟨⟨_, rfl, rfl, rfl⟩, ⟨none, [], rfl⟩⟩
  have hrun : ∃ t g, runSteps? s.callDepth 6 s = some t ∧ t.callDepth = s.callDepth ∧
      t.frame = some g ∧ g.code = code ∧ g.next = 6 ∧ t.returns.items.length = 4 ∧
      t.returns.openLoops = 2 := ⟨_, _, rfl, rfl, rfl, rfl, rfl, rfl, rfl⟩
  obtain ⟨t, g, ht, hd, hg, hcode, hnext, hlen, hopen⟩ := hrun
  have ht := inCall_of_runSteps? ht
  obtain ⟨-, hall⟩ := openLoops_of_accepted hws hok
  obtain ⟨hlevel, hcause⟩ := hall s t g hs ht (Nat.le_of_eq hd.symm) hg hcode
  have hx : code[g.next]? = some ⟨none, .loopIndex 1⟩ := by
    rw [hnext]
    rfl
  exact ⟨hws, ⟨_, hok⟩, t, g, hs, ht, Nat.le_of_eq hd.symm, hg, hcode, hx, hlen, hopen, hlevel,
    fun e u => hcause _ hx (Nat.succ_pos _) e u⟩

end Definition

end StackLang
