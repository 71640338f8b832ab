import StackLang.Proofs.Call.Effects

/-!
# What an operation does to the open loops

The innermost loop of a call is stepped in its place or dropped, a new one goes on top of the
others, and every other loop stays as it is.  Where control goes on is decided at the same time.

* `Op.Shifts`: the open loops before and behind an operation, with the place where it goes on.
* `Session.Proceeds`: what an instruction does that succeeds, loop by loop.
* `proceeds_step`: every step of a running word does that.
-/

namespace StackLang

open Action

/-- The loop with its index moved by a step. -/
def LoopFrame.stepped (x : LoopFrame) (step : Int64) : LoopFrame :=
  { x with index := stepIndex x.index step }

/-- Stepping the innermost loop at `i` goes back to the target with the loop stepped, or goes on
without it. -/
def LoopKind.Advances (step : Int64) (t : Target) (i : Nat) (loops : List LoopFrame) (j : Nat)
    (loops' : List LoopFrame) : Prop :=
  ∃ x rest, loops = x :: rest ∧
    (loopContinues (x.stepped step) step = true ∧ t = some j ∧ loops' = x.stepped step :: rest ∨
      j = i + 1 ∧ loops' = rest)

/-- Behind the operation at `i` control goes on at `j`, and `loops` have become `loops'`. -/
def Op.Shifts (i : Nat) (loops : List LoopFrame) (j : Nat) (loops' : List LoopFrame) : Op → Prop
  | .branch t => t = some j ∧ loops' = loops
  | .branchIfFalse t => (j = i + 1 ∨ t = some j) ∧ loops' = loops
  | .loop (.start _) _ => j = i + 1 ∧ ∃ x, loops' = x :: loops
  | .loop (.startUnlessEqual _) t =>
    (j = i + 1 ∧ ∃ x, loops' = x :: loops) ∨ t = some j ∧ loops' = loops
  | .loop .next t => LoopKind.Advances 1 t i loops j loops'
  | .loop .nextBy t => ∃ step, LoopKind.Advances step t i loops j loops'
  | .loop .leave t => t = some j ∧ ∃ x, loops = x :: loops'
  | .loop .unloop _ => j = i + 1 ∧ ∃ x, loops = x :: loops'
  | .exit => False
  | .callBuiltin _ | .callWord _ | .push _ | .loopIndex _ | .recurse => j = i + 1 ∧ loops' = loops

namespace Session

open ReturnStack
open StackLang.Action

/-- What an operation at the place of `f` does when it succeeds. -/
inductive Proceeds (f : CallFrame) (op : Op) (s t : Session) : Prop
  | goesOn {j : Nat} (frame : t.frame = some { f with next := j })
    (below : SameBelow s.returns t.returns)
    (shifts : op.Shifts f.next (loopsOf s.returns.items) j (loopsOf t.returns.items))
  | calls (h : Calls (some { f with next := f.next + 1 }) s.returns t)
    (room : s.returns.items.length < s.returns.limit) (hop : (op.callee? f.word).isSome)
  | leaves (hop : op = .exit) (h : Leaves s.returns t)

/-- The same word runs in the same call, with the same loops. -/
structure SameLoops (s t : Session) : Prop where
  frame : t.frame = s.frame
  below : SameBelow s.returns t.returns
  loops : loopsOf t.returns.items = loopsOf s.returns.items

variable {α : Type} {f : CallFrame} {op : Op} {s t : Session}

theorem SameLoops.refl (s : Session) : SameLoops s s :=
  ⟨rfl, .refl _, rfl⟩

/-- No built-in word changes anything about the loops. -/
theorem lasting_sameLoops (s : Session) : Lasting (SameLoops s) where
  write := fun _ h => ⟨h.frame, h.below, h.loops⟩
  record := fun _ h => ⟨h.frame, h.below, h.loops⟩
  sources := fun _ h => ⟨h.frame, h.below, h.loops⟩
  putAside := by
    intro t v returns hr h
    refine ⟨h.frame, h.below.trans (sameBelow_of_pushValue hr).1, ?_⟩
    rw [items_of_push? hr]
    exact h.loops
  takeBack := by
    intro t v returns hr h
    refine ⟨h.frame, h.below.trans (sameBelow_of_popValue? hr).1, ?_⟩
    have hl := h.loops
    rwa [items_of_popValue? hr] at hl

/-- What lies on the data stack does not matter. -/
theorem Proceeds.of_stack {stack : DataStack} (h : Proceeds f op { s with stack } t) :
    Proceeds f op s t := by
  cases h with
  | goesOn frame below shifts => exact .goesOn frame below shifts
  | calls hc hr hop => exact .calls hc hr hop
  | leaves hop hl => exact .leaves hop hl

theorem Proceeds.limit (h : Proceeds f op s t) : t.returns.limit = s.returns.limit := by
  cases h with
  | goesOn _ below _ => exact below.limit
  | calls hc _ _ => exact hc.limit
  | leaves _ hl => exact hl.limit

theorem room_of_push? {r r' : ReturnStack} {item : ReturnItem} (h : r.push? item = some r') :
    r.items.length < r.limit := by
  have hr := isSome_push? r item
  rw [h] at hr
  exact of_decide_eq_true hr.symm

theorem room_of_callCompiled {index : Nat} {name : String} {code : Code}
    (h : callCompiled index name code s = .ok () t) :
    s.returns.items.length < s.returns.limit := by
  rw [callCompiled_eq] at h
  split at h
  · rename_i hr
    exact room_of_push? hr
  · cases h

/-- The call of a word changes nothing about the loops, or it makes a call. -/
theorem sameLoops_or_calls_of_call {index : Nat} (h : call index s = .ok () t) :
    SameLoops s t ∨ Calls s.frame s.returns t ∧ s.returns.items.length < s.returns.limit := by
  unfold call at h
  rw [StackLang.get_bind] at h
  cases he : s.dictionary.get? index with
  | none =>
    rw [he] at h
    cases h
  | some entry =>
    rw [he] at h
    have hn := (lasting_sameLoops s).record (.starting entry.name entry.signature) (.refl s)
    obtain ⟨_, u, hu, h⟩ := exists_of_bind h
    cases hu
    cases hb : entry.body with
    | builtin word =>
      rw [hb] at h
      exact .inl ((lasting_sameLoops s).callBuiltin hn h)
    | compiled code =>
      rw [hb] at h
      have hc := calls_of_callCompiled h
      have hr := room_of_callCompiled h
      exact .inr ⟨hc, hr⟩

section

variable (hf : s.frame = some { f with next := f.next + 1 })
include hf

theorem proceeds_call {index : Nat} (hop : op.callee? f.word = some index)
    (h : call index s = .ok () t) : Proceeds f op s t := by
  rcases sameLoops_or_calls_of_call h with hs | ⟨hc, hr⟩
  · refine .goesOn (hs.frame.trans hf) hs.below ?_
    rw [hs.loops]
    cases op <;> first | cases hop; exact ⟨rfl, rfl⟩ | cases hop
  · exact .calls (hf ▸ hc) hr (hop ▸ rfl)

theorem proceeds_jump {target : Target}
    (shifts : ∀ j, target = some j →
      op.Shifts f.next (loopsOf s.returns.items) j (loopsOf s.returns.items))
    (h : jump target s = .ok () t) : Proceeds f op s t := by
  obtain ⟨j, ht, rfl⟩ := exists_of_jump hf h
  exact .goesOn rfl (.refl _) (shifts j ht)

theorem proceeds_operands {p : Operand α} {a : α}
    (shifts : op.Shifts f.next (loopsOf s.returns.items) (f.next + 1) (loopsOf s.returns.items))
    (h : operands p s = .ok a t) : Proceeds f op s t := by
  obtain ⟨stack, rfl⟩ := exists_of_operands h
  exact .goesOn hf (.refl _) shifts

theorem proceeds_pushLoop {x : LoopFrame}
    (shifts : op.Shifts f.next (loopsOf s.returns.items) (f.next + 1)
      (x :: loopsOf s.returns.items))
    (h : pushReturn (.loop x) s = .ok () t) : Proceeds f op s t := by
  unfold pushReturn at h
  cases hr : s.returns.push? (.loop x) with
  | none =>
    rw [hr] at h
    cases h
  | some returns =>
    rw [hr] at h
    cases h
    refine .goesOn hf (sameBelow_of_pushLoop hr).1 ?_
    rw [items_of_push? hr]
    exact shifts

omit hf in
theorem exists_loop_of_closeLoop {word : String} (h : closeLoop word s = .ok () t) :
    ∃ returns x, t = { s with returns } ∧ SameBelow s.returns returns ∧
      loopsOf s.returns.items = x :: loopsOf returns.items := by
  unfold closeLoop at h
  rw [StackLang.get_bind] at h
  cases hr : s.returns.popLoop? with
  | none =>
    rw [hr] at h
    cases h
  | some found =>
    rw [hr] at h
    cases h
    exact ⟨found.2, found.1, rfl, (sameBelow_of_popLoop? hr).1,
      loopsOf_takeLoop? (takeLoop?_of_popLoop? hr).1⟩

theorem proceeds_advanceLoop {step : Int64} {target : Target}
    (shifts : ∀ j loops, LoopKind.Advances step target f.next (loopsOf s.returns.items) j loops →
      op.Shifts f.next (loopsOf s.returns.items) j loops)
    (h : advanceLoop step target s = .ok () t) : Proceeds f op s t := by
  unfold advanceLoop at h
  rw [StackLang.get_bind] at h
  cases hx : s.returns.loop? 0 with
  | none =>
    rw [hx] at h
    cases h
  | some x =>
    rw [hx] at h
    dsimp only at h
    obtain ⟨rest, hl⟩ := List.head?_eq_some_iff.1 (List.head?_eq_getElem?.trans hx)
    split at h
    · rename_i hcontinues
      obtain ⟨j, ht, rfl⟩ := exists_of_jump (s := { s with
        returns := s.returns.replaceLoop (x.stepped step) }) hf h
      refine .goesOn rfl (sameBelow_replaceLoop hx (x.stepped step)).1 (shifts j _ ?_)
      exact ⟨x, rest, hl, .inl ⟨hcontinues, ht, loopsOf_setLoop hl (x.stepped step)⟩⟩
    · obtain ⟨returns, hr⟩ := exists_popLoop?_of_loop? hx
      have ht : EStateM.Result.ok () { s with
          returns := (s.returns.popLoop?.map (·.2)).getD s.returns } = .ok () t := h
      rw [hr] at ht
      cases ht
      refine .goesOn hf (sameBelow_of_popLoop? hr).1 (shifts _ _ ⟨x, rest, hl, .inr ⟨rfl, ?_⟩⟩)
      have hrest := loopsOf_takeLoop? (takeLoop?_of_popLoop? hr).1
      rw [hl] at hrest
      exact (List.cons.inj hrest).2.symm

theorem proceeds_runLoop {kind : LoopKind} {target : Target}
    (h : runLoop kind target s = .ok () t) : Proceeds f (.loop kind target) s t := by
  cases kind with
  | start direction =>
    obtain ⟨x, u, hu, h⟩ := exists_of_bind h
    obtain ⟨stack, rfl⟩ := exists_of_operands hu
    exact .of_stack (proceeds_pushLoop (s := { s with stack }) hf ⟨rfl, x, rfl⟩ h)
  | startUnlessEqual direction =>
    obtain ⟨x, u, hu, h⟩ := exists_of_bind h
    obtain ⟨stack, rfl⟩ := exists_of_operands hu
    split at h
    · exact .of_stack (proceeds_jump (s := { s with stack }) hf (fun j hj => .inr ⟨hj, rfl⟩) h)
    · exact .of_stack (proceeds_pushLoop (s := { s with stack }) hf (.inl ⟨rfl, x, rfl⟩) h)
  | next => exact proceeds_advanceLoop hf (fun j loops ha => ha) h
  | nextBy =>
    obtain ⟨step, u, hu, h⟩ := exists_of_bind h
    obtain ⟨stack, rfl⟩ := exists_of_operands hu
    exact .of_stack (proceeds_advanceLoop (s := { s with stack }) hf
      (fun j loops ha => ⟨step, ha⟩) h)
  | leave =>
    obtain ⟨_, u, hu, h⟩ := exists_of_bind h
    obtain ⟨returns, x, rfl, hb, hl⟩ := exists_loop_of_closeLoop hu
    obtain ⟨j, ht, rfl⟩ := exists_of_jump (s := { s with returns }) hf h
    exact .goesOn rfl hb ⟨ht, x, hl⟩
  | unloop =>
    obtain ⟨returns, x, rfl, hb, hl⟩ := exists_loop_of_closeLoop h
    exact .goesOn hf hb ⟨rfl, x, hl⟩

/-- What an operation that succeeds does, by what it is. -/
theorem proceeds_runOp (h : runOp f op s = .ok () t) : Proceeds f op s t := by
  cases op with
  | callBuiltin index | callWord index => exact proceeds_call hf rfl h
  | recurse => exact proceeds_call hf rfl h
  | push v => exact proceeds_operands hf ⟨rfl, rfl⟩ (show operands (.push v) s = .ok () t from h)
  | branch target => exact proceeds_jump hf (fun j hj => ⟨hj, rfl⟩) h
  | branchIfFalse target =>
    obtain ⟨flag, u, hu, h⟩ := exists_of_bind h
    obtain ⟨stack, rfl⟩ := exists_of_operands hu
    split at h
    · exact .of_stack (proceeds_jump (s := { s with stack }) hf (fun j hj => ⟨.inr hj, rfl⟩) h)
    · cases h
      exact .goesOn hf (.refl _) ⟨.inl rfl, rfl⟩
  | loop kind target => exact proceeds_runLoop hf h
  | loopIndex depth =>
    unfold runOp at h
    dsimp only at h
    rw [StackLang.get_bind] at h
    cases hx : s.returns.loop? depth with
    | none =>
      rw [hx] at h
      cases h
    | some x =>
      rw [hx] at h
      unfold push at h
      exact proceeds_operands hf ⟨rfl, rfl⟩ h
  | exit => exact .leaves rfl (leaves_of_leaveWord h)

end

/-- What a step of a running word does. -/
theorem proceeds_step (hf : s.frame = some f) (h : step s = .ok () t) :
    ∃ x, f.code[f.next]? = some x ∧ Proceeds f x.op s t := by
  obtain ⟨u, sources, hu, rfl⟩ := exists_of_step h
  rw [operation_of_frame hf] at hu
  cases hx : f.code[f.next]? with
  | none =>
    unfold runInstruction at hu
    rw [hx] at hu
    cases hu
  | some x =>
    rw [runInstruction_eq hx] at hu
    refine ⟨x, rfl, ?_⟩
    cases proceeds_runOp (f := f) rfl hu with
    | goesOn frame below shifts => exact .goesOn frame below shifts
    | calls hc hr hop => exact .calls ⟨hc.frame, hc.items, hc.limit⟩ hr hop
    | leaves hop hl => exact .leaves hop ⟨hl.marker, hl.limit⟩

end Session

end StackLang
