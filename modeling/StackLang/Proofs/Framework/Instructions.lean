import StackLang.Proofs.Framework.Respects

/-!
# Instructions of sessions that cannot be told apart

A relation that the instructions of a word respect, too: the same word runs in both sessions, and
the loops that it has open are the same.  What lies below the marker of its call may still differ.

* `Running.respects_runOp`: every operation but the one that leaves the word respects the relation.
* `Running.alike_operation`: with that one, so do the operations of an evaluation.
* `Congruence.alike_operation`: an operation keeps a property that has nothing to do with calls.
-/

namespace StackLang

open Action

/-- A relation of sessions that run the same word, with the same loops open. -/
structure Running (R : Session → Session → Prop) : Prop extends Congruence R where
  frame : ∀ {s t}, R s t → t.frame = s.frame
  setFrame : ∀ {s t}, R s t → ∀ frame, R { s with frame } { t with frame }
  pushReturn : ∀ item, Respects R (pushReturn item)
  loop? : ∀ {s t}, R s t → ∀ depth, t.returns.loop? depth = s.returns.loop? depth
  replaceLoop : ∀ {s t}, R s t → ∀ frame,
    R { s with returns := s.returns.replaceLoop frame }
      { t with returns := t.returns.replaceLoop frame }
  dropLoop : ∀ {s t}, R s t →
    (t.returns.popLoop?).isSome = (s.returns.popLoop?).isSome ∧
      R { s with returns := (s.returns.popLoop?.map (·.2)).getD s.returns }
        { t with returns := (t.returns.popLoop?.map (·.2)).getD t.returns }

namespace Running

variable {α : Type} {R : Session → Session → Prop} (hR : Running R)
include hR

theorem respects_callCompiled (index : Nat) (name : String) (code : Code) :
    Respects R (callCompiled index name code) := by
  refine Respects.view (fun s t h => by rw [hR.frame h]) fun s => ?_
  refine (Respects.modify fun _ _ h => hR.setFrame h none).bind fun _ => ?_
  refine (hR.pushReturn _).bind fun _ => Respects.modify fun s t h => ?_
  have hc := hR.setFrame (hR.change h fun w => { w with
    calls := ⟨name, w.location.getD .unspecified⟩ :: w.calls }) (some ⟨index, name, code, 0⟩)
  exact hc

theorem respects_call (index : Nat) : Respects R (call index) := by
  refine hR.respects_view (fun s t h => by rw [h.dictionary]) fun s => ?_
  cases s.dictionary.get? index with
  | none => exact hR.respects_raise _
  | some entry =>
    refine (hR.respects_notify _).bind fun _ => ?_
    cases entry.body with
    | builtin word => exact hR.respects_callBuiltin _ word
    | compiled code => exact hR.respects_callCompiled _ _ code

theorem respects_jump (target : Target) : Respects R (jump target) := by
  intro s t h
  unfold jump
  rw [hR.frame h]
  split
  · exact .ok () h
  · split
    · split
      · exact .ok () (hR.setFrame h _)
      · exact .error _ h
    · exact .error _ h

theorem respects_noLoop (word : String) : Respects R (noLoop word : Action α) :=
  hR.respects_raise _

theorem respects_closeLoop (word : String) : Respects R (closeLoop word) := by
  intro s t h
  obtain ⟨hsome, hdrop⟩ := hR.dropLoop h
  unfold closeLoop
  rw [get_bind, get_bind]
  cases hs : s.returns.popLoop? with
  | none =>
    cases ht : t.returns.popLoop? with
    | none => exact hR.respects_noLoop word s t h
    | some _ => simp [hs, ht] at hsome
  | some x =>
    cases ht : t.returns.popLoop? with
    | none => simp [hs, ht] at hsome
    | some y =>
      rw [hs, ht] at hdrop
      exact .ok () hdrop

theorem respects_advanceLoop (step : Int64) (target : Target) :
    Respects R (advanceLoop step target) := by
  refine Respects.view (fun s t h => by rw [hR.loop? h]) fun s => ?_
  split
  · exact hR.respects_noLoop _
  · rename_i frame _
    dsimp only
    split
    · refine Respects.bind (Respects.modify fun _ _ h => hR.replaceLoop h _) fun _ => ?_
      exact hR.respects_jump target
    · exact Respects.modify fun _ _ h => (hR.dropLoop h).2

theorem respects_runLoop (kind : LoopKind) (target : Target) :
    Respects R (runLoop kind target) := by
  cases kind with
  | start direction =>
    exact (hR.respects_operands _).bind fun frame => hR.pushReturn _
  | startUnlessEqual direction =>
    refine (hR.respects_operands _).bind fun frame => ?_
    split
    · exact hR.respects_jump target
    · exact hR.pushReturn _
  | next => exact hR.respects_advanceLoop 1 target
  | nextBy => exact (hR.respects_operands _).bind fun step => hR.respects_advanceLoop step target
  | leave => exact (hR.respects_closeLoop _).bind fun _ => hR.respects_jump target
  | unloop => exact hR.respects_closeLoop _

/-- Every operation but an exit keeps the relation. -/
theorem respects_runOp (frame : CallFrame) {op : Op} (hop : op ≠ .exit) :
    Respects R (runOp frame op) := by
  cases op with
  | callBuiltin index | callWord index => exact hR.respects_call index
  | push v => exact hR.respects_push v
  | branch target => exact hR.respects_jump target
  | branchIfFalse target =>
    refine (hR.respects_operands _).bind fun b => ?_
    split
    · exact hR.respects_jump target
    · exact Respects.pure ()
  | loop kind target => exact hR.respects_runLoop kind target
  | loopIndex depth =>
    refine Respects.view (fun s t h => by rw [hR.loop? h]) fun s => ?_
    split
    · exact hR.respects_push _
    · exact hR.respects_noLoop _
  | exit => exact (hop rfl).elim
  | recurse => exact hR.respects_call frame.word

/-- The frame moves on and the place is noted before an instruction runs. -/
theorem respects_advance (frame : CallFrame) (location : Option Location) :
    Respects R (modify fun s => { s with
      frame := some { frame with next := frame.next + 1 }
      location := location.or s.location } : Action Unit) :=
  Respects.modify fun _ _ h =>
    hR.setFrame (hR.change h fun w => { w with location := location.or w.location }) _

/-- Behind an exit another relation may hold. -/
theorem alike_runInstruction {S : Session → Session → Prop} (hS : ∀ s t, R s t → S s t)
    (hleave : ∀ frame s t, R s t → Alike S (leaveWord frame s) (leaveWord frame t))
    (frame : CallFrame) {s t : Session} (h : R s t) :
    Alike S (runInstruction frame s) (runInstruction frame t) := by
  unfold runInstruction
  cases frame.code[frame.next]? with
  | none => exact .error _ (hS _ _ h)
  | some x =>
    refine (hR.respects_advance frame x.location s t h).bind (fun _ s t h => ?_) hS
    by_cases hop : x.op = .exit
    · rw [hop]
      exact hleave frame s t h
    · exact (hR.respects_runOp frame hop s t h).mono hS

end Running

/-! ## Tokens -/

namespace Congruence

variable {R : Session → Session → Prop} (hR : Congruence R)
include hR

theorem respects_literal (location : Location) (v : Value) : Respects R (literal location v) := by
  refine hR.respects_view (fun s t h => by rw [h.isCompiling]) fun s => ?_
  split
  · exact hR.respects_compile _ _
  · exact hR.respects_push v

theorem respects_stringLiteral (location : Location) (form : StringForm) (text : String) :
    Respects R (stringLiteral location form text) := by
  cases form with
  | display => exact hR.respects_print text
  | push => exact (hR.respects_literal _ _).bind fun _ => hR.respects_literal _ _
  | print =>
    refine hR.respects_view (fun s t h => by rw [h.isCompiling]) fun s => ?_
    split
    · refine hR.respects_view (fun s t h => by rw [h.dictionary]) fun s => ?_
      split
      · exact hR.respects_raise _
      · refine (hR.respects_compile _ _).bind fun _ => ?_
        exact (hR.respects_compile _ _).bind fun _ => hR.respects_compile _ _
    · exact hR.respects_print text

theorem respects_recordToken (token : Token) : Respects R (recordToken token) := by
  refine hR.respects_view (fun s t h => by rw [h.definition]) fun s => ?_
  split
  · exact hR.setDefinition _
  · exact Respects.pure ()

end Congruence

namespace Running

variable {R : Session → Session → Prop} (hR : Running R)
include hR

theorem respects_word (location : Location) (name : String) : Respects R (word location name) := by
  refine (hR.respects_lookup name).bind fun x => ?_
  refine hR.respects_view (fun s t h => by rw [h.isCompiling]) fun s => ?_
  dsimp only
  split
  · exact hR.respects_raise_bind _ _
  · split
    · exact hR.respects_compile _ _
    · exact hR.respects_call _

theorem respects_runToken (token : Token) : Respects R (runToken token) := by
  refine hR.respects_view (fun s t h => by rw [h.isCompiling]) fun s => ?_
  refine Respects.bind (Respects.modify fun _ _ h =>
    hR.change h fun w => { w with location := some token.location }) fun _ => ?_
  refine Respects.bind ?_ fun _ => ?_
  · cases token.lexeme with
    | number value => exact hR.respects_literal _ _
    | string form text => exact hR.respects_stringLiteral _ _ _
    | word name => exact hR.respects_word _ _
  · split
    · exact hR.respects_recordToken token
    · exact Respects.pure ()

theorem alike_operation {S : Session → Session → Prop} (hS : ∀ s t, R s t → S s t)
    (hleave : ∀ frame s t, R s t → Alike S (leaveWord frame s) (leaveWord frame t))
    {s t : Session} (h : R s t) : Alike S (operation s) (operation t) := by
  unfold operation
  rw [get_bind, get_bind, hR.frame h]
  cases s.frame with
  | some frame => exact hR.alike_runInstruction hS hleave frame h
  | none =>
    refine (hR.token s t h).bind (fun found s t h => ?_) hS
    cases found with
    | some token => exact (hR.respects_runToken token s t h).mono hS
    | none => exact .ok () (hS _ _ h)

end Running

/-! ## Properties -/

/-- Two copies of a session with a property of neither the running word nor the return stack. -/
theorem Congruence.running {P : Session → Prop} (hP : Congruence fun s t => t = s ∧ P s)
    (hframe : ∀ s frame, P s → P { s with frame })
    (hreturns : ∀ s returns, P s → P { s with returns }) : Running fun s t => t = s ∧ P s where
  toCongruence := hP
  frame := by
    rintro s t ⟨rfl, -⟩
    rfl
  setFrame := by
    rintro s t ⟨rfl, h⟩ frame
    exact ⟨rfl, hframe _ frame h⟩
  pushReturn := by
    rintro item s t ⟨rfl, h⟩
    unfold pushReturn
    cases t.returns.push? item with
    | some returns => exact .ok _ ⟨rfl, hreturns _ returns h⟩
    | none => exact .error _ ⟨rfl, h⟩
  loop? := by
    rintro s t ⟨rfl, -⟩ depth
    rfl
  replaceLoop := by
    rintro s t ⟨rfl, h⟩ frame
    exact ⟨rfl, hreturns _ _ h⟩
  dropLoop := by
    rintro s t ⟨rfl, h⟩
    exact ⟨rfl, rfl, hreturns _ _ h⟩

/-- An operation keeps such a property, whether it succeeds or fails. -/
theorem Congruence.alike_operation {P : Session → Prop} (hP : Congruence fun s t => t = s ∧ P s)
    (hframe : ∀ s frame, P s → P { s with frame })
    (hreturns : ∀ s returns, P s → P { s with returns }) {s : Session} (h : P s) :
    Alike (fun s t => t = s ∧ P s) (operation s) (operation s) := by
  refine (hP.running hframe hreturns).alike_operation (fun _ _ h => h) ?_ ⟨rfl, h⟩
  rintro frame s t ⟨rfl, h⟩
  unfold leaveWord
  rw [get_bind]
  obtain ⟨caller?, returns⟩ := t.returns.exitCall
  cases caller? with
  | none => exact .error _ ⟨rfl, h⟩
  | some caller =>
    have hp : P { t with frame := caller, returns } := hframe _ caller (hreturns _ returns h)
    exact hP.finishWord frame.name _ _
      (hP.change ⟨rfl, hp⟩ fun w => { w with calls := w.calls.tail })

end StackLang
