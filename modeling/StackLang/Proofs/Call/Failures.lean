import StackLang.Proofs.Call.Effects
import StackLang.Proofs.Framework.Indifferent

/-!
# Why an instruction fails

An instruction lacks a value or the room for one, or a loop; or a built-in word fails; or the code
is at fault, with a branch that leaves it, or with an exit where there is no call to leave.

* `Fault.Harmless`: no rule of the machine is broken that is about running code.
* `harmless_call`: the call of a word fails in no other way.
* `Session.Failure`: the ways in which an instruction may fail.
* `failure_of_operation`: each instruction that fails does so in one of them.
* `error_of_step`: the other ways in which a step may fail.
-/

namespace StackLang

/-- At most a definition that was to be closed has a stray branch. -/
def Fault.Harmless (fault : Fault) : Prop :=
  ∀ b, fault = .breach b → ∃ word index target, b = .strayTarget word index target

theorem Fault.harmless_script (e : ScriptError) : (Fault.script e).Harmless :=
  nofun

namespace Session

open ReturnStack
open StackLang.Action

variable {α : Type}

/-! ## Built-in words -/

/-- Where the action fails, it does so without harm. -/
def TripleHarmless (p : Action α) : Prop :=
  Triple (fun _ => True) p (fun _ _ => True) fun fault _ => fault.Harmless

theorem indifferent_harmless : Indifferent (fun _ => True) fun fault _ => fault.Harmless where
  fails := fun _ _ => Fault.harmless_script _
  data := fun _ _ _ => trivial
  prints := fun _ _ => trivial
  observe := fun _ _ => trivial
  token := fun _ _ _ => trivial
  putAside := fun _ _ => trivial
  takeBack := fun _ _ => trivial
  apart := fun _ _ _ _ _ _ => trivial
  stray := fun word index target _ _ hb => ⟨word, index, target, (Fault.breach.inj hb).symm⟩

theorem harmless_modify (f : Session → Session) : TripleHarmless (modify f) :=
  Triple.modify fun _ _ => trivial

theorem harmless_callBuiltin (name : String) (word : Builtin) :
    TripleHarmless (callBuiltin name word) := by
  refine (harmless_modify _).bind fun _ => ?_
  refine (indifferent_harmless.triple_builtin word).bind fun _ => ?_
  exact (harmless_modify _).bind fun _ => indifferent_harmless.triple_finishWord name

/-- The call of a word fails without harm. -/
theorem harmless_call (index : Nat) : TripleHarmless (call index) := by
  refine Triple.view fun s => ?_
  split
  · exact indifferent_harmless.triple_raise _
  · refine (harmless_modify _).bind fun _ => ?_
    split
    · exact harmless_callBuiltin _ _
    · intro t _
      rw [callCompiled_eq]
      cases t.returns.push? (.call t.frame) with
      | some returns => trivial
      | none => exact Fault.harmless_script _

/-! ## Instructions -/

/-- The ways in which an operation of the frame may fail, from the return stack `r`. -/
inductive Failure (f : CallFrame) (op : Op) (r : ReturnStack) : Fault → Prop
  /-- There is no value of the right kind, or no room for another item. -/
  | value {e : ScriptError} (h : ∀ opener closer, e.cause ≠ .unmatched opener closer) :
    Failure f op r (.script e)
  | loop {e : ScriptError} (h : r.openLoops < op.loopsNeeded) : Failure f op r (.script e)
  | call {fault : Fault} (hop : (op.callee? f.word).isSome) (h : fault.Harmless) :
    Failure f op r fault
  | branch {t : Target} (ht : op.target? = some t) (h : ∀ j, t = some j → f.code.size ≤ j) :
    Failure f op r (.breach (.branchOutside t f.name))
  | exit (hop : op = .exit) (h : fromMarker r.items = []) :
    Failure f op r (.breach (.lostMarker f.name))

variable {f : CallFrame} {op : Op} {s t : Session} {e : Fault}

theorem failure_of_operands {p : Operand α} {r : ReturnStack} (h : operands p s = .error e t) :
    Failure f op r e := by
  unfold operands at h
  cases hp : p s.stack with
  | ok a stack =>
    rw [hp] at h
    cases h
  | error fault stack =>
    rw [hp] at h
    cases h
    refine .value fun opener closer => ?_
    cases fault <;> exact nofun

theorem failure_of_pushReturn {item : ReturnItem} {r : ReturnStack}
    (h : pushReturn item s = .error e t) : Failure f op r e := by
  unfold pushReturn at h
  split at h
  · cases h
  · cases h
    exact .value fun opener closer => nofun

theorem failure_of_jump {r : ReturnStack} {target : Target} {j : Nat}
    (hf : s.frame = some { f with next := j }) (ht : op.target? = some target)
    (h : jump target s = .error e t) : Failure f op r e := by
  unfold jump at h
  rw [hf] at h
  dsimp only at h
  split at h
  · rename_i j
    split at h
    · cases h
    · rename_i hj
      cases h
      exact .branch ht fun k hk => Option.some.inj hk ▸ Nat.not_lt.1 hj
  · cases h
    exact .branch ht nofun

/-- One of two computations fails. -/
theorem error_of_bind {p : Action α} {β : Type} {q : α → Action β}
    (h : (p >>= q) s = .error e t) :
    p s = .error e t ∨ ∃ a u, p s = .ok a u ∧ q a u = .error e t := by
  rw [bind_apply] at h
  cases hp : p s with
  | ok a u =>
    rw [hp] at h
    exact .inr ⟨a, u, rfl, h⟩
  | error e' u =>
    rw [hp] at h
    cases h
    exact .inl rfl

section

variable (hf : s.frame = some { f with next := f.next + 1 })
include hf

theorem failure_of_advanceLoop {step : Int64} {target : Target} (ht : op.target? = some target)
    (hn : op.loopsNeeded = 1) (h : advanceLoop step target s = .error e t) :
    Failure f op s.returns e := by
  unfold advanceLoop at h
  rw [StackLang.get_bind] at h
  cases hx : s.returns.loop? 0 with
  | none =>
    rw [hx] at h
    cases h
    refine .loop ?_
    have hle := List.getElem?_eq_none_iff.1 hx
    unfold openLoops
    omega
  | some x =>
    rw [hx] at h
    dsimp only at h
    split at h
    · exact failure_of_jump (s := { s with
        returns := s.returns.replaceLoop { x with index := stepIndex x.index step } }) hf ht h
    · cases h

omit hf in
theorem failure_of_closeLoop {word : String} (hn : op.loopsNeeded = 1)
    (h : closeLoop word s = .error e t) : Failure f op s.returns e := by
  unfold closeLoop at h
  rw [StackLang.get_bind] at h
  cases hr : s.returns.popLoop? with
  | some found =>
    rw [hr] at h
    cases h
  | none =>
    rw [hr] at h
    cases h
    refine .loop ?_
    cases hl : loopsOf s.returns.items with
    | nil =>
      unfold openLoops
      rw [hl, hn]
      exact Nat.zero_lt_one
    | cons x loops =>
      obtain ⟨returns, hp⟩ := exists_popLoop?_of_loop? (x := x)
        (show (loopsOf s.returns.items)[0]? = some x by rw [hl]; rfl)
      rw [hr] at hp
      cases hp

theorem failure_of_runLoop {kind : LoopKind} {target : Target}
    (h : runLoop kind target s = .error e t) : Failure f (.loop kind target) s.returns e := by
  cases kind with
  | start direction =>
    rcases error_of_bind h with h | ⟨x, u, hu, h⟩
    · exact failure_of_operands h
    · exact failure_of_pushReturn h
  | startUnlessEqual direction =>
    rcases error_of_bind h with h | ⟨x, u, hu, h⟩
    · exact failure_of_operands h
    · obtain ⟨stack, rfl⟩ := exists_of_operands hu
      split at h
      · exact failure_of_jump (s := { s with stack }) hf rfl h
      · exact failure_of_pushReturn h
  | next => exact failure_of_advanceLoop hf rfl rfl h
  | nextBy =>
    rcases error_of_bind h with h | ⟨x, u, hu, h⟩
    · exact failure_of_operands h
    · obtain ⟨stack, rfl⟩ := exists_of_operands hu
      exact failure_of_advanceLoop (s := { s with stack }) hf rfl rfl h
  | leave =>
    rcases error_of_bind h with h | ⟨x, u, hu, h⟩
    · exact failure_of_closeLoop rfl h
    · obtain ⟨returns, rfl, -, -⟩ := exists_of_closeLoop hu
      exact failure_of_jump (s := { s with returns }) hf rfl h
  | unloop => exact failure_of_closeLoop rfl h

omit hf in
theorem failure_of_call {index : Nat} (hop : op.callee? f.word = some index)
    (h : call index s = .error e t) : Failure f op s.returns e := by
  have hc := harmless_call index s trivial
  rw [h] at hc
  exact .call (hop ▸ rfl) hc

omit hf in
theorem failure_of_leaveWord (h : leaveWord f s = .error e t) : Failure f .exit s.returns e := by
  rw [leaveWord_eq] at h
  cases he : s.returns.exitCall with
  | mk caller returns =>
    rw [he] at h
    cases caller with
    | none =>
      cases h
      exact .exit rfl (fromMarker_of_exitCall_eq_none he)
    | some caller =>
      obtain ⟨observers, hw⟩ := exists_finishWord f.name { s with
        frame := caller
        returns
        calls := s.calls.tail }
      dsimp only at h
      rw [hw] at h
      cases h

/-- Why an operation fails, by what it is. -/
theorem failure_of_runOp (h : runOp f op s = .error e t) : Failure f op s.returns e := by
  cases op with
  | callBuiltin index | callWord index | recurse => exact failure_of_call rfl h
  | push v => exact failure_of_operands (show operands (.push v) s = .error e t from h)
  | branch target => exact failure_of_jump hf rfl h
  | branchIfFalse target =>
    rcases error_of_bind h with h | ⟨flag, u, hu, h⟩
    · exact failure_of_operands h
    · obtain ⟨stack, rfl⟩ := exists_of_operands hu
      split at h
      · exact failure_of_jump (s := { s with stack }) hf rfl h
      · cases h
  | loop kind target => exact failure_of_runLoop hf h
  | loopIndex depth =>
    unfold runOp at h
    dsimp only at h
    rw [StackLang.get_bind] at h
    cases hx : s.returns.loop? depth with
    | none =>
      rw [hx] at h
      cases h
      exact .loop (Nat.lt_succ_of_le (List.getElem?_eq_none_iff.1 hx))
    | some x =>
      rw [hx] at h
      unfold push at h
      exact failure_of_operands h
  | exit => exact failure_of_leaveWord h

end

/-- Why an instruction fails. -/
theorem failure_of_operation {x : Instruction} (hf : s.frame = some f)
    (hx : f.code[f.next]? = some x) (h : operation s = .error e t) :
    Failure f x.op s.returns e := by
  rw [operation_of_frame hf, runInstruction_eq hx] at h
  have he := failure_of_runOp (f := f) rfl h
  exact he

/-- Sources are dropped while no word runs, and an error of that is one of the script. -/
theorem error_of_dropUsedSources (h : dropUsedSources s = .error e t) :
    s.frame = none ∧ ∃ cause, e = .script cause := by
  unfold dropUsedSources at h
  rw [StackLang.get_bind] at h
  split at h
  · rename_i hf
    refine ⟨Option.isNone_iff_eq_none.1 hf, ?_⟩
    cases hu : unusedSources s.sources with
    | ok sources =>
      rw [hu] at h
      cases h
    | error d =>
      rw [hu] at h
      cases h
      exact ⟨_, rfl⟩
  · cases h

/-- A step fails if it was cancelled, or its operation fails, or the source ends too early behind
the last word. -/
theorem error_of_step (h : step s = .error e t) :
    e = .script (s.error .cancelled) ∨ operation s = .error e t ∨
      ∃ u cause, operation s = .ok () u ∧ u.frame = none ∧ e = .script cause := by
  cases hc : s.cancelled with
  | true =>
    rw [step_of_cancelled hc] at h
    cases h
    exact .inl rfl
  | false =>
    rw [step_of_running hc] at h
    rcases error_of_bind h with h | ⟨_, u, hu, h⟩
    · exact .inr (.inl h)
    · obtain ⟨hf, cause, he⟩ := error_of_dropUsedSources h
      exact .inr (.inr ⟨u, cause, hu, hf, he⟩)

end Session

end StackLang
