import StackLang.Proofs.Call.Markers
import StackLang.Proofs.Definition.ControlFlow
import StackLang.Proofs.Framework.Instructions
import StackLang.Proofs.Framework.Lasting
import StackLang.Proofs.Session.Steps

/-!
# What an operation does to the calls

An instruction that succeeds does one of three things.  The running word stays and goes on at one of
its instructions, and the return stack is the same from the nearest marker on; or a word is called,
and its marker goes on top; or the running word is left, and what its marker covered shows again.

* `Session.Effect`: the three things that an instruction may do.
* `effect_step`: each instruction that succeeds does one of them.
* `tokenEffect_step`: a token changes nothing about the calls, or it calls a word.
-/

namespace StackLang

namespace Session

open ReturnStack
open StackLang.Action

/-- The same word runs in the same call, with as many loops open. -/
structure SameCall (s t : Session) : Prop where
  frame : t.frame = s.frame
  below : SameBelow s.returns t.returns
  loops : t.returns.openLoops = s.returns.openLoops

/-- From a session with the return stack `r` a word has been called that will go back to
`caller`. -/
structure Calls (caller : Option CallFrame) (r : ReturnStack) (t : Session) : Prop where
  frame : ∃ g, t.frame = some g ∧ g.next = 0
  items : t.returns.items = .call caller :: r.items
  limit : t.returns.limit = r.limit

/-- From a session with the return stack `r` the running word has been left. -/
structure Leaves (r : ReturnStack) (t : Session) : Prop where
  marker : fromMarker r.items = .call t.frame :: t.returns.items
  limit : t.returns.limit = r.limit

/-- What an operation at the place of `f` may lead to, from the return stack `r`. -/
inductive Effect (f : CallFrame) (op : Op) (r : ReturnStack) (t : Session) : Prop
  | stays {j : Nat} (frame : t.frame = some { f with next := j }) (below : SameBelow r t.returns)
      (goes : op.Goes f.next r.openLoops j t.returns.openLoops)
  | calls (h : Calls (some { f with next := f.next + 1 }) r t)
      (goes : op.Goes f.next r.openLoops (f.next + 1) r.openLoops)
  | leaves (hop : op = .exit) (h : Leaves r t)

variable {α : Type} {f : CallFrame} {op : Op} {s t : Session}

theorem SameCall.refl (s : Session) : SameCall s s :=
  ⟨rfl, .refl _, rfl⟩

theorem SameCall.callDepth (h : SameCall s t) : t.callDepth = s.callDepth :=
  h.below.markers

theorem Leaves.callDepth (h : Leaves s.returns t) : s.callDepth = t.callDepth + 1 := by
  unfold Session.callDepth
  rw [← markers_fromMarker, h.marker]
  rfl

/-! ## Built-in words -/

/-- No built-in word changes anything about the calls. -/
theorem lasting_sameCall (s : Session) : Lasting (SameCall s) where
  write := fun _ h => ⟨h.frame, h.below, h.loops⟩
  record := fun _ h => ⟨h.frame, h.below, h.loops⟩
  sources := fun _ h => ⟨h.frame, h.below, h.loops⟩
  putAside := by
    intro t v returns hr h
    obtain ⟨hb, hn⟩ := sameBelow_of_pushValue hr
    exact ⟨h.frame, h.below.trans hb, hn.trans h.loops⟩
  takeBack := by
    intro t v returns hr h
    obtain ⟨hb, hn⟩ := sameBelow_of_popValue? hr
    exact ⟨h.frame, h.below.trans hb, hn.trans h.loops⟩

theorem exists_of_operands {p : Operand α} {a : α} (h : operands p s = .ok a t) :
    ∃ stack, t = { s with stack } := by
  unfold operands at h
  cases hp : p s.stack with
  | ok b stack =>
    rw [hp] at h
    cases h
    exact ⟨stack, rfl⟩
  | error fault stack =>
    rw [hp] at h
    cases h

/-! ## Calls -/

theorem calls_of_callCompiled {index : Nat} {name : String} {code : Code}
    (h : callCompiled index name code s = .ok () t) : Calls s.frame s.returns t := by
  rw [callCompiled_eq] at h
  cases hr : s.returns.push? (.call s.frame) with
  | none =>
    rw [hr] at h
    cases h
  | some returns =>
    rw [hr] at h
    cases h
    exact ⟨⟨_, rfl, rfl⟩, items_of_push? hr, limit_of_push? hr⟩

/-- The call of a word changes nothing about the calls if the word is built in. -/
theorem sameCall_or_calls_of_call {index : Nat} (h : call index s = .ok () t) :
    SameCall s t ∨ Calls s.frame s.returns t := by
  unfold call at h
  rw [StackLang.get_bind] at h
  cases he : s.dictionary.get? index with
  | none =>
    rw [he] at h
    cases h
  | some entry =>
    rw [he] at h
    have hn := (lasting_sameCall s).record (.starting entry.name entry.signature) (.refl s)
    obtain ⟨_, u, hu, h⟩ := exists_of_bind h
    cases hu
    cases hb : entry.body with
    | builtin word =>
      rw [hb] at h
      exact .inl ((lasting_sameCall s).callBuiltin hn h)
    | compiled code =>
      rw [hb] at h
      have hc := calls_of_callCompiled h
      exact .inr hc

theorem leaves_of_leaveWord (h : leaveWord f s = .ok () t) : Leaves s.returns t := by
  rw [leaveWord_eq] at h
  cases he : s.returns.exitCall with
  | mk caller returns =>
    rw [he] at h
    cases caller with
    | none => cases h
    | some caller =>
      obtain ⟨observers, hw⟩ := exists_finishWord f.name { s with
        frame := caller
        returns
        calls := s.calls.tail }
      dsimp only at h
      rw [hw] at h
      cases h
      obtain ⟨hm, hl⟩ := fromMarker_exitCall he
      exact ⟨hm, hl⟩

/-! ## Jumps and loops -/

theorem exists_of_jump {g : CallFrame} {target : Target} (hf : s.frame = some g)
    (h : jump target s = .ok () t) :
    ∃ j, target = some j ∧ t = { s with frame := some { g with next := j } } := by
  unfold jump at h
  rw [hf] at h
  dsimp only at h
  split at h
  · split at h
    · cases h
      exact ⟨_, rfl, rfl⟩
    · cases h
  · cases h

section

variable (hf : s.frame = some { f with next := f.next + 1 })
include hf

theorem effect_jump {target : Target}
    (goes : ∀ j, target = some j → op.Goes f.next s.returns.openLoops j s.returns.openLoops)
    (h : jump target s = .ok () t) : Effect f op s.returns t := by
  obtain ⟨j, ht, rfl⟩ := exists_of_jump hf h
  exact .stays rfl (.refl _) (goes j ht)

theorem effect_pushLoop {x : LoopFrame}
    (goes : op.Goes f.next s.returns.openLoops (f.next + 1) (s.returns.openLoops + 1))
    (h : pushReturn (.loop x) s = .ok () t) : Effect f op s.returns t := by
  unfold pushReturn at h
  cases hr : s.returns.push? (.loop x) with
  | none =>
    rw [hr] at h
    cases h
  | some returns =>
    rw [hr] at h
    cases h
    obtain ⟨hb, hn⟩ := sameBelow_of_pushLoop hr
    exact .stays hf hb (hn ▸ goes)

omit hf in
theorem exists_of_closeLoop {word : String} (h : closeLoop word s = .ok () t) :
    ∃ returns, t = { s with returns } ∧ SameBelow s.returns returns ∧
      returns.openLoops + 1 = s.returns.openLoops := by
  unfold closeLoop at h
  rw [StackLang.get_bind] at h
  cases hr : s.returns.popLoop? with
  | none =>
    rw [hr] at h
    cases h
  | some found =>
    rw [hr] at h
    cases h
    obtain ⟨hb, hn⟩ := sameBelow_of_popLoop? hr
    exact ⟨found.2, rfl, hb, hn⟩

/-- Stepping the innermost loop goes back to the target, or drops the loop and goes on. -/
theorem effect_advanceLoop {step : Int64} {target : Target}
    (back : ∀ j, target = some j → op.Goes f.next s.returns.openLoops j s.returns.openLoops)
    (on : ∀ m, m + 1 = s.returns.openLoops →
      op.Goes f.next s.returns.openLoops (f.next + 1) m)
    (h : advanceLoop step target s = .ok () t) : Effect f op s.returns t := by
  unfold advanceLoop at h
  rw [StackLang.get_bind] at h
  cases hx : s.returns.loop? 0 with
  | none =>
    rw [hx] at h
    cases h
  | some x =>
    rw [hx] at h
    dsimp only at h
    split at h
    · obtain ⟨hb, hn⟩ := sameBelow_replaceLoop hx { x with index := stepIndex x.index step }
      obtain ⟨j, ht, rfl⟩ := exists_of_jump (s := { s with
        returns := s.returns.replaceLoop { x with index := stepIndex x.index step } }) hf h
      exact .stays rfl hb (hn ▸ back j ht)
    · obtain ⟨returns, hr⟩ := exists_popLoop?_of_loop? hx
      obtain ⟨hb, hn⟩ := sameBelow_of_popLoop? hr
      have ht : EStateM.Result.ok () { s with
          returns := (s.returns.popLoop?.map (·.2)).getD s.returns } = .ok () t := h
      rw [hr] at ht
      cases ht
      exact .stays hf hb (on _ hn)

/-! ## Instructions -/

theorem effect_runLoop {kind : LoopKind} {target : Target} (h : runLoop kind target s = .ok () t) :
    Effect f (.loop kind target) s.returns t := by
  cases kind with
  | start direction =>
    obtain ⟨x, u, hu, h⟩ := exists_of_bind h
    obtain ⟨stack, rfl⟩ := exists_of_operands hu
    exact effect_pushLoop (s := { s with stack }) hf ⟨rfl, rfl⟩ h
  | startUnlessEqual direction =>
    obtain ⟨x, u, hu, h⟩ := exists_of_bind h
    obtain ⟨stack, rfl⟩ := exists_of_operands hu
    split at h
    · exact effect_jump (s := { s with stack }) hf (fun j hj => .inr ⟨hj, rfl⟩) h
    · exact effect_pushLoop (s := { s with stack }) hf (.inl ⟨rfl, rfl⟩) h
  | next =>
    exact effect_advanceLoop hf (fun j hj => .inl ⟨hj, rfl⟩) (fun m hm => .inr ⟨rfl, hm⟩) h
  | nextBy =>
    obtain ⟨step, u, hu, h⟩ := exists_of_bind h
    obtain ⟨stack, rfl⟩ := exists_of_operands hu
    exact effect_advanceLoop (s := { s with stack }) hf (fun j hj => .inl ⟨hj, rfl⟩)
      (fun m hm => .inr ⟨rfl, hm⟩) h
  | leave =>
    obtain ⟨_, u, hu, h⟩ := exists_of_bind h
    obtain ⟨returns, rfl, hb, hn⟩ := exists_of_closeLoop hu
    obtain ⟨j, ht, rfl⟩ := exists_of_jump (s := { s with returns }) hf h
    exact .stays rfl hb ⟨ht, hn⟩
  | unloop =>
    obtain ⟨returns, rfl, hb, hn⟩ := exists_of_closeLoop h
    exact .stays hf hb ⟨rfl, hn⟩

theorem effect_call {index : Nat}
    (goes : op.Goes f.next s.returns.openLoops (f.next + 1) s.returns.openLoops)
    (h : call index s = .ok () t) : Effect f op s.returns t := by
  rcases sameCall_or_calls_of_call h with h | h
  · exact .stays (h.frame.trans hf) h.below (h.loops.symm ▸ goes)
  · exact .calls (hf ▸ h) goes

theorem effect_operands {p : Operand α} {a : α}
    (goes : op.Goes f.next s.returns.openLoops (f.next + 1) s.returns.openLoops)
    (h : operands p s = .ok a t) : Effect f op s.returns t := by
  obtain ⟨stack, rfl⟩ := exists_of_operands h
  exact .stays hf (.refl _) goes

/-- What an operation that succeeds does to the calls, by what it is. -/
theorem effect_runOp (h : runOp f op s = .ok () t) : Effect f op s.returns t := by
  cases op with
  | callBuiltin index | callWord index => exact effect_call hf ⟨rfl, rfl⟩ h
  | recurse => exact effect_call hf ⟨rfl, rfl⟩ h
  | push v => exact effect_operands hf ⟨rfl, rfl⟩ (show operands (.push v) s = .ok () t from h)
  | branch target => exact effect_jump hf (fun j hj => ⟨hj, rfl⟩) h
  | branchIfFalse target =>
    obtain ⟨flag, u, hu, h⟩ := exists_of_bind h
    obtain ⟨stack, rfl⟩ := exists_of_operands hu
    split at h
    · exact effect_jump (s := { s with stack }) hf (fun j hj => ⟨.inr hj, rfl⟩) h
    · cases h
      exact .stays hf (.refl _) ⟨.inl rfl, rfl⟩
  | loop kind target => exact effect_runLoop hf h
  | loopIndex depth =>
    unfold runOp at h
    dsimp only at h
    rw [StackLang.get_bind] at h
    cases hx : s.returns.loop? depth with
    | none =>
      rw [hx] at h
      cases h
    | some x =>
      rw [hx] at h
      unfold push at h
      exact effect_operands hf ⟨rfl, rfl⟩ h
  | exit => exact .leaves rfl (leaves_of_leaveWord h)

end

/-- What an instruction that succeeds does to the calls. -/
theorem effect_operation (hf : s.frame = some f) (h : operation s = .ok () t) :
    ∃ x, f.code[f.next]? = some x ∧ Effect f x.op s.returns t := by
  rw [operation_of_frame hf] at h
  cases hx : f.code[f.next]? with
  | none =>
    unfold runInstruction at h
    rw [hx] at h
    cases h
  | some x =>
    rw [runInstruction_eq hx] at h
    have he := effect_runOp (f := f) rfl h
    exact ⟨x, rfl, he⟩

/-! ## Tokens -/

/-- No word runs, and a token has called none or has called one. -/
def TokenEffect (s t : Session) : Prop :=
  SameCall s t ∨ Calls none s.returns t

theorem exists_of_nextToken? {found : Option Token} (h : nextToken? s = .ok found t) :
    ∃ sources, t = { s with sources } := by
  unfold nextToken? at h
  split at h
  · cases h
    exact ⟨_, rfl⟩
  · split at h
    · cases h
      exact ⟨_, rfl⟩
    · cases h
      exact ⟨_, rfl⟩

theorem exists_of_setDefinition {d : Option Definition} (h : setDefinition d s = .ok () t) :
    ∃ sources, t = { s with sources } := by
  cases h
  dsimp only
  split
  · exact ⟨_, rfl⟩
  · exact ⟨_, rfl⟩

theorem exists_of_recordToken {token : Token} (h : recordToken token s = .ok () t) :
    ∃ sources, t = { s with sources } := by
  unfold recordToken at h
  rw [StackLang.get_bind] at h
  cases hd : s.definition? with
  | some d =>
    rw [hd] at h
    exact exists_of_setDefinition h
  | none =>
    rw [hd] at h
    cases h
    exact ⟨_, rfl⟩

theorem tokenEffect_word {location : Location} {name : String} (hf : s.frame = none)
    (h : word location name s = .ok () t) : TokenEffect s t := by
  obtain ⟨⟨index, entry⟩, u, hu, hw⟩ := exists_of_bind h
  have hus : u = s := by
    unfold lookup at hu
    split at hu <;> cases hu
    rfl
  rw [hus] at hw
  dsimp only at hw
  rw [StackLang.get_bind] at hw
  split at hw
  · obtain ⟨_, _, hr, -⟩ := exists_of_bind hw
    cases hr
  · split at hw
    · exact .inl (((lasting_sameCall s).congruence.respects_compile _ _).keeps (.refl s) hw)
    · exact (sameCall_or_calls_of_call hw).imp_right fun h => hf ▸ h

theorem tokenEffect_runLexeme {location : Location} {lexeme : Lexeme} (hf : s.frame = none)
    (h : runLexeme location lexeme s = .ok () t) : TokenEffect s t := by
  have hR := (lasting_sameCall s).congruence
  cases lexeme with
  | number value => exact .inl ((hR.respects_literal location _).keeps (.refl s) h)
  | string form text =>
    exact .inl ((hR.respects_stringLiteral location form text).keeps (.refl s) h)
  | word name => exact tokenEffect_word hf h

theorem tokenEffect_runToken {token : Token} (hf : s.frame = none)
    (h : runToken token s = .ok () t) : TokenEffect s t := by
  unfold runToken at h
  rw [StackLang.get_bind, modify_bind] at h
  obtain ⟨_, u, hu, h⟩ := exists_of_bind h
  have hu := tokenEffect_runLexeme (s := { s with location := some token.location }) hf hu
  split at h
  · obtain ⟨sources, rfl⟩ := exists_of_recordToken h
    rcases hu with hu | hu
    · exact .inl ⟨hu.frame, hu.below, hu.loops⟩
    · exact .inr ⟨hu.frame, hu.items, hu.limit⟩
  · cases h
    rcases hu with hu | hu
    · exact .inl ⟨hu.frame, hu.below, hu.loops⟩
    · exact .inr ⟨hu.frame, hu.items, hu.limit⟩

/-- While no word runs, an operation changes nothing about the calls, or it calls a word. -/
theorem tokenEffect_operation (hf : s.frame = none) (h : operation s = .ok () t) :
    TokenEffect s t := by
  unfold operation at h
  rw [StackLang.get_bind, hf] at h
  obtain ⟨found, u, hu, h⟩ := exists_of_bind h
  obtain ⟨sources, rfl⟩ := exists_of_nextToken? hu
  cases found with
  | none =>
    cases h
    exact .inl ⟨rfl, .refl _, rfl⟩
  | some token =>
    rcases tokenEffect_runToken (s := { s with sources }) hf h with h | h
    · exact .inl ⟨h.frame, h.below, h.loops⟩
    · exact .inr ⟨h.frame, h.items, h.limit⟩

/-! ## Steps -/

theorem exists_of_dropUsedSources (h : dropUsedSources s = .ok () t) :
    ∃ sources, t = { s with sources } ∧ ∀ p ∈ sources, p ∈ s.sources := by
  unfold dropUsedSources at h
  rw [StackLang.get_bind] at h
  split at h
  · cases hu : unusedSources s.sources with
    | ok sources =>
      rw [hu] at h
      cases h
      refine ⟨sources, rfl, fun p hp => ?_⟩
      rcases unusedSources_eq_ok hu with rfl | hr
      · exact hp
      · exact List.mem_of_mem_tail (hr p hp)
    | error d =>
      rw [hu] at h
      cases h
  · cases h
    exact ⟨s.sources, rfl, fun _ hp => hp⟩

theorem exists_of_step (h : step s = .ok () t) :
    ∃ u sources, operation s = .ok () u ∧ t = { u with sources } := by
  obtain ⟨u, hu, h⟩ := exists_of_step_dropped h
  obtain ⟨sources, rfl, -⟩ := exists_of_dropUsedSources h
  exact ⟨u, sources, hu, rfl⟩

theorem effect_step (hf : s.frame = some f) (h : step s = .ok () t) :
    ∃ x, f.code[f.next]? = some x ∧ Effect f x.op s.returns t := by
  obtain ⟨u, sources, hu, rfl⟩ := exists_of_step h
  obtain ⟨x, hx, he⟩ := effect_operation hf hu
  refine ⟨x, hx, ?_⟩
  cases he with
  | stays frame below goes => exact .stays frame below goes
  | calls h goes => exact .calls ⟨h.frame, h.items, h.limit⟩ goes
  | leaves hop h => exact .leaves hop ⟨h.marker, h.limit⟩

theorem tokenEffect_step (hf : s.frame = none) (h : step s = .ok () t) : TokenEffect s t := by
  obtain ⟨u, sources, hu, rfl⟩ := exists_of_step h
  rcases tokenEffect_operation hf hu with h | h
  · exact .inl ⟨h.frame, h.below, h.loops⟩
  · exact .inr ⟨h.frame, h.items, h.limit⟩

end Session

end StackLang
