import StackLang.Proofs.Call.Failures
import StackLang.Proofs.Call.Run
import StackLang.Proofs.Definition.Operations

/-!
# Running finished code

Finished code has an instruction wherever control goes in it.  So a word with such code never leaves
it and never branches out of it, whatever the words do that it calls, and it finds its marker when
it ends.

* `followed_inside`: control stays inside of finished code.
* `harmless_of_inCall`: a step of a word with finished code breaks no rule about running code.
* `Definition.Operation.safe_finish`: so it is for the code of every definition that is closed.
-/

namespace StackLang

open Action

/-- If the frame runs this code, its next instruction exists. -/
def Inside (code : Code) (f : CallFrame) : Prop :=
  f.code = code → f.next < Array.size code

theorem followed_inside {code : Code} (hc : code.Finished) :
    Followed fun f _ => Inside code f where
  start := by
    intro g hnext _
    rw [hnext]
    exact hc.size_pos
  goes := by
    rintro f x n j m - hx hg hf
    rw [hf] at hx
    obtain ⟨hop, rfl | ht⟩ := hg.next_or_target
    · exact hc.succ_lt hx hop
    · obtain ⟨k, hk, hlt⟩ := hc.inside _ x _ hx ht
      cases hk
      exact hlt

section

variable {code : Code} {s t u : Session} {g : CallFrame} {fault : Fault} (hc : code.Finished)
  (hs : s.Entered code) (h : InCall s.callDepth s t) (hd : s.callDepth ≤ t.callDepth)
  (hg : t.frame = some g) (hcode : g.code = code)
include hc hs h hd hg hcode

theorem next_lt_of_inCall : g.next < Array.size code :=
  h.fits (followed_inside hc) hs hd hg hcode

/-- The marker of the call is there, and every branch stays inside. -/
theorem harmless_of_inCall (hstep : step t = .error fault u) : fault.Harmless := by
  obtain ⟨x, hx⟩ : ∃ x, g.code[g.next]? = some x :=
    ⟨_, Array.getElem?_eq_getElem (hcode.symm ▸ next_lt_of_inCall hc hs h hd hg hcode)⟩
  rcases Session.error_of_step hstep with rfl | ho | ⟨v, cause, -, -, rfl⟩
  · exact Fault.harmless_script _
  · cases Session.failure_of_operation hg hx ho with
    | value h | loop h => exact Fault.harmless_script _
    | call hop h => exact h
    | branch ht hout =>
      obtain ⟨n, rfl, hlt⟩ := hc.inside g.next x _ (hcode ▸ hx) ht
      have := hout n rfl
      rw [hcode] at this
      omega
    | exit hop hm =>
      obtain ⟨caller, below, hi⟩ := hs.marker
      have hpos : 0 < s.callDepth := by
        unfold Session.callDepth
        rw [hi]
        exact Nat.succ_pos _
      have hzero : t.callDepth = 0 := by
        unfold Session.callDepth
        rw [← ReturnStack.markers_fromMarker, hm]
        rfl
      omega
  · exact Fault.harmless_script _

end

namespace Definition.Operation

/-- Whatever has been done to a definition, to close it is refused, or hands over finished code.
Wherever the code runs, from its first instruction and until its call has ended, it has a next
instruction, and no step of it takes a branch out of it or breaks another rule about running
code. -/
theorem safe_finish (os : List Operation) (word : Nat) (name : String) (location : Location) :
    let d := behindAll os (opened word name location)
    (∃ c, Definition.finish d = .error c d) ∨
      ∃ code, Definition.finish d = .ok (.ok code) { d with code := #[] } ∧ code.Finished ∧
        ∀ s t g, s.Entered code → InCall s.callDepth s t → s.callDepth ≤ t.callDepth →
          t.frame = some g → g.code = code → g.next < Array.size code ∧
            ∀ fault u, step t = .error fault u → fault.Harmless := by
  intro d
  rcases finish_behindAll os word name location with hf | ⟨code, hc, hf⟩
  · exact .inl hf
  · refine .inr ⟨code, hf, hc, fun s t g hs h hd hg hcode => ?_⟩
    exact ⟨next_lt_of_inCall hc hs h hd hg hcode,
      fun fault u => harmless_of_inCall hc hs h hd hg hcode⟩

/-- A `LOOP` and a `;` in the wrong places are refused, and `DO 7 LEAVE LOOP` is finished in spite
of them.  Called with 0 as the start and 3 as the limit, it leaves the loop and reaches its exit. -/
theorem safe_finish_leave :
    let os : List Operation := [.control none .closeLoop, .control none .openDo, .finish,
      .emit none (.push (.int 7)) rfl, .control none .leave, .control none .closeLoop]
    let d := behindAll os (opened 96 "SEVEN" .unspecified)
    let code : Code := #[⟨none, .loop (.start .ascending) (some 4)⟩, ⟨none, .push (.int 7)⟩,
      ⟨none, .loop .leave (some 4)⟩, ⟨none, .loop .next (some 1)⟩, ⟨none, .exit⟩]
    let s : Session := { Session.ofConfig .standard with
      stack := [.int 0, .int 3]
      returns := ⟨[.call none], 4096, 1, rfl⟩
      frame := some ⟨96, "SEVEN", code, 0⟩ }
    Definition.finish d = .ok (.ok code) { d with code := #[] } ∧ code.Finished ∧
      ∃ t g, s.Entered code ∧ InCall s.callDepth s t ∧ s.callDepth ≤ t.callDepth ∧
        t.frame = some g ∧ g.code = code ∧ g.next = 4 ∧ g.next < Array.size code ∧
          ∀ fault u, step t = .error fault u → fault.Harmless := by
  intro os d code s
  have hok : Definition.finish d = .ok (.ok code) { d with code := #[] } := by
    simp [d, os, code, behindAll, behind, edit, ControlWord.compileStep, opened, emit_eq,
      discard_apply, compileDo_eq, compileLoop_eq, compileLeave_eq, finish_eq, addLeave?,
      Code.retargetAll, Code.retarget, Code.settle, settleLoop, Op.setTarget, strayTarget?,
      Op.target?]
  rcases safe_finish os 96 "SEVEN" .unspecified with ⟨c, hc⟩ | ⟨code', hf, hfinished, hsafe⟩
  · cases hok.symm.trans hc
  · cases hok.symm.trans hf
    have hs : s.Entered code := ⟨⟨_, rfl, rfl, rfl⟩, ⟨none, [], rfl⟩⟩
    have hrun : ∃ t g, runSteps? s.callDepth 3 s = some t ∧ t.callDepth = s.callDepth ∧
        t.frame = some g ∧ g.code = code ∧ g.next = 4 := ⟨_, _, rfl, rfl, rfl, rfl, rfl⟩
    obtain ⟨t, g, ht, hd, hg, hcode, hnext⟩ := hrun
    have ht := inCall_of_runSteps? ht
    obtain ⟨hinside, hharmless⟩ := hsafe s t g hs ht (Nat.le_of_eq hd.symm) hg hcode
    exact ⟨hok, hfinished, t, g, hs, ht, Nat.le_of_eq hd.symm, hg, hcode, hnext, hinside, hharmless⟩

end Definition.Operation

end StackLang
