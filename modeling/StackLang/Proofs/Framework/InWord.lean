import StackLang.Proofs.Call.Markers
import StackLang.Proofs.Framework.Operation

/-!
# What instructions do not take away

An instruction that neither calls nor leaves a word moves on in the running word, works on its
loops, or works on values.

* `InWord`: a property that is kept while the same word goes on.
* `InWord.triple_runOp`: every instruction but calls and exits keeps it.
* `InWord.quiet`: so does every operation that neither calls nor leaves a word.
-/

namespace StackLang.Action

/-- `P` is kept while the running word goes on at any of its instructions, whatever loops it opens
and closes. -/
structure InWord (P : Session → Prop) (E : Fault → Session → Prop) : Prop
    extends Detached P E where
  goTo : ∀ {s : Session} {f : CallFrame} (next : Nat), s.frame = some f → P s →
    P { s with frame := some { f with next } }
  opens : ∀ {s : Session} {x : LoopFrame} {returns : ReturnStack},
    s.returns.push? (.loop x) = some returns → P s → P { s with returns }
  advances : ∀ {s : Session} {x : LoopFrame} (x' : LoopFrame), s.returns.loop? 0 = some x → P s →
    P { s with returns := s.returns.replaceLoop x' }
  closes : ∀ {s : Session} {x : LoopFrame} {returns : ReturnStack},
    s.returns.popLoop? = some (x, returns) → P s → P { s with returns }
  outside : ∀ {s : Session} (target : Target) (word : String), P s →
    E (.breach (.branchOutside target word)) s
  ranOff : ∀ {s : Session} (index : Nat) (word : String), P s →
    E (.breach (.ranOff index word)) s

namespace InWord

variable {P : Session → Prop} {E : Fault → Session → Prop} (hP : InWord P E)
include hP

theorem triple_jump (target : Target) : Triple P (jump target) (fun _ => P) E := by
  intro s h
  unfold jump
  cases hf : s.frame with
  | none => exact h
  | some f =>
    cases target with
    | none => exact hP.outside _ _ h
    | some index =>
      dsimp only
      split
      · rename_i hi
        split at hi
        · cases hi
          exact hP.goTo index hf h
        · cases hi
      · rename_i hi
        split at hi
        · cases hi
        · cases hi
          exact hP.outside _ _ h

theorem triple_pushLoop (x : LoopFrame) : Triple P (pushReturn (.loop x)) (fun _ => P) E := by
  intro s h
  unfold pushReturn
  cases hr : s.returns.push? (.loop x) with
  | none => exact hP.fails _ h
  | some returns => exact hP.opens hr h

theorem triple_closeLoop (word : String) : Triple P (closeLoop word) (fun _ => P) E := by
  refine Triple.get_bind fun s h => ?_
  split
  · rename_i hr
    exact Triple.modify fun t ht => ht ▸ hP.closes hr h
  · exact triple_raise fun t ht => ht ▸ hP.fails _ h

theorem triple_advanceLoop (step : Int64) (target : Target) :
    Triple P (advanceLoop step target) (fun _ => P) E := by
  refine Triple.get_bind fun s h => ?_
  split
  · exact triple_raise fun t ht => ht ▸ hP.fails _ h
  · rename_i x hx
    dsimp only
    split
    · refine Triple.bind (Q := fun _ => P) (Triple.modify fun t ht => ?_)
        fun _ => hP.triple_jump target
      exact ht ▸ hP.advances _ hx h
    · refine Triple.modify fun t ht => ?_
      subst ht
      obtain ⟨returns, hr⟩ := ReturnStack.exists_popLoop?_of_loop? hx
      rw [hr]
      exact hP.closes hr h

theorem triple_runLoop (kind : LoopKind) (target : Target) :
    Triple P (runLoop kind target) (fun _ => P) E := by
  cases kind with
  | start direction => exact (hP.triple_operands _).bind fun x => hP.triple_pushLoop x
  | startUnlessEqual direction =>
    refine (hP.triple_operands _).bind fun x => ?_
    split
    · exact hP.triple_jump target
    · exact hP.triple_pushLoop x
  | next => exact hP.triple_advanceLoop 1 target
  | nextBy => exact (hP.triple_operands _).bind fun step => hP.triple_advanceLoop step target
  | leave => exact (hP.triple_closeLoop _).bind fun _ => hP.triple_jump target
  | unloop => exact hP.triple_closeLoop _

theorem triple_runOp (f : CallFrame) {op : Op} (hcall : op.callee? f.word = none)
    (hop : op ≠ .exit) : Triple P (runOp f op) (fun _ => P) E := by
  cases op with
  | callBuiltin index | callWord index | recurse => cases hcall
  | push v => exact hP.triple_push v
  | branch target => exact hP.triple_jump target
  | branchIfFalse target =>
    refine (hP.triple_operands _).bind fun flag => ?_
    split
    · exact hP.triple_jump target
    · exact Triple.pure fun _ h => h
  | loop kind target => exact hP.triple_runLoop kind target
  | loopIndex depth =>
    refine Triple.view fun s => ?_
    split
    · exact hP.triple_push _
    · exact hP.triple_raise _
  | exit => exact (hop rfl).elim

theorem quiet {s : Session} (h : P s) : Quiet s P E where
  toDetached := hP.toDetached
  start := h
  advance := by
    intro f location hf
    have hl := hP.apart location s.stack s.dictionary s.cells s.sources h
    exact hP.goTo (f.next + 1) (show { s with location }.frame = some f from hf) hl
  ranOff := fun _ => hP.ranOff _ _ h
  runOp := fun _ hcall hop => hP.triple_runOp _ hcall hop

end InWord

end StackLang.Action
