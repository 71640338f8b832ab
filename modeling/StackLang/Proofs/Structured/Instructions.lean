import StackLang.Proofs.Structured.Mirrors

/-!
# One instruction

The direct evaluation leaves the frame of the word as it is, and the machine moves it from one
instruction to the next.  That is all the difference between the two while the word runs.

* `At`: the machine stands at an instruction of the word that the direct evaluation is in.
* `At.popFlag`, `At.openLoop`, `At.countOn`, `At.call` and others: what an instruction does, and
  the part of the direct evaluation that does the same.
-/

namespace StackLang

/-! ## Places -/

namespace Session

/-- The running word at another instruction. -/
def goto (s : Session) (f : CallFrame) (p : Nat) : Session :=
  { s with frame := some { f with next := p } }

/-- The place of an instruction that is reached. -/
def visited (s : Session) (l : Option Location) : Session :=
  { s with location := l.or s.location }

end Session

/-- A word runs with some calls in flight, and has these loops open, the innermost first. -/
structure Position (f : CallFrame) (depth : Nat) (loops : List LoopFrame) (s : Session) :
    Prop where
  frame : s.frame = some f
  callDepth : s.callDepth = depth
  loops : loops <+: ReturnStack.loopsOf s.returns.items

/-- The machine differs from the direct evaluation only in that it stands at an instruction. -/
def At (f : CallFrame) (depth : Nat) (loops : List LoopFrame) (p : Nat) (s t : Session) : Prop :=
  Position f depth loops s ∧ t = s.goto f p

open Action

variable {f : CallFrame} {depth p i : Nat} {loops : List LoopFrame} {s t : Session}

theorem Position.setReturns (h : Position f depth loops s) {returns : ReturnStack}
    {loops' : List LoopFrame}
    (hm : ReturnStack.markers returns.items = ReturnStack.markers s.returns.items)
    (hl : loops' <+: ReturnStack.loopsOf returns.items) :
    Position f depth loops' { s with returns } :=
  ⟨h.frame, hm.trans h.callDepth, hl⟩

theorem Position.visited (h : Position f depth loops s) (l : Option Location) :
    Position f depth loops (s.visited l) :=
  ⟨h.frame, h.callDepth, h.loops⟩

theorem Position.at (h : Position f depth loops s) (p : Nat) :
    At f depth loops p s (s.goto f p) :=
  ⟨h, rfl⟩

theorem Position.agree (h : Position f depth loops s) (p : Nat) : s.Agree (s.goto f p) :=
  ⟨rfl, rfl, rfl, by rw [h.frame]; rfl, rfl, rfl⟩

theorem At.beside (h : At f depth loops p s t) : Beside s t := by
  obtain ⟨-, rfl⟩ := h
  exact ⟨some { f with next := p }, s.returns, rfl, rfl⟩

theorem At.congruence (f : CallFrame) (depth : Nat) (loops : List LoopFrame) (p : Nat) :
    Congruence (At f depth loops p) where
  agree := by
    rintro s t ⟨h, rfl⟩
    exact h.agree p
  write := by
    rintro s t ⟨h, rfl⟩ w
    exact ⟨⟨h.frame, h.callDepth, h.loops⟩, rfl⟩
  record := by
    rintro s t ⟨h, rfl⟩ e
    exact ⟨⟨h.frame, h.callDepth, h.loops⟩, rfl⟩
  source := by
    refine Respects.discard ?_
    rintro s t ⟨h, rfl⟩
    unfold currentSource
    rw [(h.agree p).currentWord, show (s.goto f p).sources = s.sources from rfl]
    cases s.sources with
    | nil => exact .error _ (h.at p)
    | cons source rest => exact .ok source (h.at p)
  token := by
    rintro s t ⟨h, rfl⟩
    unfold nextToken? Session.goto
    dsimp only
    split
    · exact .ok _ (h.at p)
    · split
      · exact .ok _ ⟨⟨h.frame, h.callDepth, h.loops⟩, rfl⟩
      · exact .ok _ (h.at p)
  setDefinition := by
    refine fun d => Respects.modify ?_
    rintro s t ⟨h, rfl⟩
    unfold Session.goto
    dsimp only
    split
    · exact ⟨⟨h.frame, h.callDepth, h.loops⟩, rfl⟩
    · exact h.at p
  pushValue := by
    rintro v s t ⟨h, rfl⟩
    unfold pushReturn Session.goto
    dsimp only
    cases hp : s.returns.push? (.value v) with
    | none => exact .error _ (h.at p)
    | some returns =>
      have hi := ReturnStack.items_of_push? hp
      refine .ok _ ⟨h.setReturns ?_ ?_, rfl⟩
      · rw [hi]
        rfl
      · rw [hi]
        exact h.loops
  popValue := by
    rintro s t ⟨h, rfl⟩ v returns hp
    have hi := ReturnStack.items_of_popValue? hp
    refine ⟨returns, hp, h.setReturns ?_ ?_, rfl⟩
    · rw [hi]
      rfl
    · have hl := h.loops
      rwa [hi] at hl
  finishWord := by
    refine respects_finishWord_of ?_ ?_
    · rintro s t ⟨h, rfl⟩
      exact ⟨rfl, rfl⟩
    · rintro s t ⟨h, rfl⟩ e
      exact ⟨⟨h.frame, h.callDepth, h.loops⟩, rfl⟩

/-! ## Matching instructions -/

theorem Matches.of_alike {α : Type} {R : Session → Session → Prop}
    {r r' : EStateM.Result Fault Session α} (h : Alike R r r') (hR : ∀ s t, R s t → Beside s t) :
    Matches (fun _ => R) r r' := by
  cases h with
  | ok a h => exact .ok a a h
  | error e h => exact .error e (hR _ _ h)

theorem Matches.mono {α β : Type} {Q Q' : α → Session → Session → Prop}
    {r : EStateM.Result Fault Session α} {r' : EStateM.Result Fault Session β}
    (h : Matches Q r r') (hQ : ∀ a s t, Q a s t → Q' a s t) : Matches Q' r r' := by
  cases h with
  | ok a b h => exact .ok a b (hQ _ _ _ h)
  | error e h => exact .error e h

/-- The evaluation does something and looks at the result, and so does the machine. -/
theorem Matches.bind {α β γ : Type} {R : Session → Session → Prop}
    {Q : β → Session → Session → Prop} {p : Action α} {q : α → Action β} {q' : α → Action γ}
    (hp : Alike R (p s) (p t)) (hR : ∀ s t, R s t → Beside s t)
    (hq : ∀ a s t, R s t → Matches Q (q a s) (q' a t)) :
    Matches Q ((p >>= q) s) ((p >>= q') t) := by
  rw [bind_apply, bind_apply]
  generalize p s = r at hp
  generalize p t = r' at hp
  cases hp with
  | ok a h => exact hq a _ _ h
  | error e h => exact .error e (hR _ _ h)

namespace At

theorem push (h : At f depth loops p s t) (v : Value) :
    Matches (fun _ => At f depth loops p) (Action.push v s) (Action.push v t) :=
  .of_alike ((congruence f depth loops p).respects_push v s t h) fun _ _ => At.beside

theorem jump (h : At f depth loops p s t) (hi : i < f.code.size) :
    Action.jump (some i) t = .ok () (s.goto f i) := by
  obtain ⟨-, rfl⟩ := h
  have hf : (s.goto f p).frame = some { f with next := p } := rfl
  have hj := jump_inside hf hi
  exact hj

theorem branch {α : Type} {Q : α → Session → Session → Prop} {a : α}
    (h : At f depth loops p s t) (hi : i < f.code.size) (hQ : Q a s (s.goto f i)) :
    Matches Q (.ok a s) (Action.jump (some i) t) := by
  rw [h.jump hi]
  exact .ok a () hQ

/-- A branch is taken or not as the flag says. -/
theorem popFlag (h : At f depth loops p s t) (g : CallFrame) (hi : i < f.code.size) :
    Matches (fun
      | true => At f depth loops p
      | false => At f depth loops i) (operands .popFlag s)
      (runOp g (.branchIfFalse (some i)) t) := by
  have ha := (congruence f depth loops p).respects_operands .popFlag s t h
  show Matches _ _ ((operands .popFlag >>= fun flag =>
    if !flag then Action.jump (some i) else pure ()) t)
  rw [bind_apply]
  generalize operands .popFlag s = r at ha
  generalize operands .popFlag t = r' at ha
  cases ha with
  | error e h => exact .error e h.beside
  | ok flag h =>
    cases flag with
    | true => exact .ok true () h
    | false => exact h.branch hi (h.1.at i)

/-! ## Loops -/

theorem pushLoop (h : At f depth loops p s t) (x : LoopFrame) :
    Matches (fun _ => At f depth (x :: loops) p) (pushReturn (.loop x) s)
      (pushReturn (.loop x) t) := by
  obtain ⟨h, rfl⟩ := h
  unfold pushReturn Session.goto
  dsimp only
  cases hp : s.returns.push? (.loop x) with
  | none => exact .error _ (h.at p).beside
  | some returns =>
    have hi := ReturnStack.items_of_push? hp
    refine .ok () () ⟨h.setReturns ?_ ?_, rfl⟩
    · rw [hi]
      rfl
    · rw [hi]
      exact List.cons_prefix_cons.2 ⟨rfl, h.loops⟩

theorem openLoop (h : At f depth loops p s t) (g : CallFrame) (query : Bool)
    (hi : i < f.code.size) :
    Matches (fun
      | some x => At f depth (x :: loops) p
      | none => At f depth loops i) (Action.openLoop query s)
      (runOp g (.loop (if query then .startUnlessEqual .ascending else .start .ascending)
        (some i)) t) := by
  have ha := (congruence f depth loops p).respects_operands takeBounds s t h
  have hpush (x : LoopFrame) {s t : Session} (h : At f depth loops p s t) :
      Matches (fun
        | some x => At f depth (x :: loops) p
        | none => At f depth loops i)
        ((do pushReturn (.loop x); pure (some x) : Action (Option LoopFrame)) s)
        (pushReturn (.loop x) t) := by
    have hx := h.pushLoop x
    rw [bind_apply]
    generalize pushReturn (.loop x) s = r at hx
    generalize pushReturn (.loop x) t = r' at hx
    cases hx with
    | ok _ _ h => exact .ok (some x) () h
    | error e hb => exact .error e hb
  cases query with
  | false => exact Matches.bind ha (fun _ _ => At.beside) fun x s t h => hpush x h
  | true =>
    refine Matches.bind ha (fun _ _ => At.beside) fun x s t h => ?_
    by_cases hx : x.index = x.limit
    · simp only [hx, Bool.true_and, beq_self_eq_true, if_true]
      exact h.branch hi (h.1.at i)
    · simp only [hx, Bool.true_and, beq_iff_eq, if_false]
      exact hpush x h

theorem dropLoop_eq {x : LoopFrame} {returns : ReturnStack}
    (h : s.returns.popLoop? = some (x, returns)) :
    Action.dropLoop s = .ok () { s with returns } := by
  show (.ok () { s with
    returns := (s.returns.popLoop?.map (·.2)).getD s.returns } :
      EStateM.Result Fault Session Unit) = _
  rw [h]
  rfl

/-- The innermost loop goes, and the ones around it stay. -/
theorem popLoop? {x : LoopFrame} (h : At f depth (x :: loops) p s t) :
    ∃ returns, s.returns.popLoop? = some (x, returns) ∧ t.returns.popLoop? = some (x, returns) ∧
      At f depth loops p { s with returns } { t with returns } := by
  obtain ⟨h, rfl⟩ := h
  obtain ⟨outer, ho⟩ := h.loops
  obtain ⟨rest, ht, hl⟩ := ReturnStack.exists_takeLoop? ho.symm
  obtain ⟨returns, hp, hi, -⟩ := ReturnStack.exists_popLoop? ht
  refine ⟨returns, hp, hp, h.setReturns ?_ ?_, rfl⟩
  · rw [hi]
    exact ReturnStack.markers_congr (ReturnStack.fromMarker_takeLoop? ht)
  · rw [hi, hl]
    exact List.prefix_append loops outer

theorem dropLoop {x : LoopFrame} (h : At f depth (x :: loops) p s t) :
    ∃ s' t', Action.dropLoop s = .ok () s' ∧ Action.dropLoop t = .ok () t' ∧
      closeLoop "LEAVE" t = .ok () t' ∧ At f depth loops p s' t' := by
  obtain ⟨returns, hs, ht, h⟩ := h.popLoop?
  refine ⟨_, _, dropLoop_eq hs, dropLoop_eq ht, ?_, h⟩
  unfold closeLoop
  rw [get_bind, ht]
  rfl

/-- Leaving a loop drops it and goes on behind it. -/
theorem leave {x : LoopFrame} (h : At f depth (x :: loops) p s t) (g : CallFrame)
    (hi : i < f.code.size) :
    Matches (fun _ => At f depth loops i) (Action.dropLoop s)
      (runOp g (.loop .leave (some i)) t) := by
  obtain ⟨s', t', hs, -, ht, h⟩ := h.dropLoop
  rw [hs]
  unfold runOp runLoop
  dsimp only
  rw [bind_apply, ht]
  exact h.branch hi (h.1.at i)

end At

/-- An index stops at the end of the 64-bit range. -/
theorem toInt_stepIndex_one (index : Int64) :
    (stepIndex index 1).toInt = min 9223372036854775807 (index.toInt + 1) := by
  have hlo := index.le_toInt
  have hhi := index.toInt_lt
  have hone : (1 : Int64).toInt = 1 := by decide
  rw [stepIndex, hone, Int64.toInt_minValue, Int64.toInt_maxValue, Int64.toInt_ofInt_of_le]
  · omega
  · omega
  · omega

theorem loopContinues_stepIndex (x : LoopFrame) :
    loopContinues { x with index := stepIndex x.index 1 } 1 =
      decide (x.index.toInt + 1 < x.limit.toInt) := by
  have hlimit := x.limit.toInt_lt
  rw [loopContinues, if_neg (by decide)]
  refine decide_eq_decide.2 ?_
  rw [Int64.lt_iff_toInt_lt, toInt_stepIndex_one]
  dsimp only
  omega

theorem stepIndex_of_lt {x : LoopFrame} (h : x.index.toInt + 1 < x.limit.toInt) :
    stepIndex x.index 1 = x.index + 1 := by
  have hlo := x.index.le_toInt
  have hlimit := x.limit.toInt_lt
  have hone : (1 : Int64).toInt = 1 := by decide
  refine Int64.toInt_inj.1 ?_
  rw [toInt_stepIndex_one, Int64.toInt_add, hone, Int.bmod_eq_of_le (by omega) (by omega)]
  omega

namespace At

/-- Counting on is the same as a step of one that stops at the end of the 64-bit range. -/
theorem countOn {x : LoopFrame} (h : At f depth (x :: loops) p s t) (g : CallFrame)
    (hi : i < f.code.size) :
    Matches (fun
      | some y => At f depth (y :: loops) i
      | none => At f depth loops p) (Action.countOn x s)
      (runOp g (.loop .next (some i)) t) := by
  have hx : t.returns.loop? 0 = some x := by
    obtain ⟨h, rfl⟩ := h
    obtain ⟨outer, ho⟩ := h.loops
    show (ReturnStack.loopsOf s.returns.items)[0]? = _
    rw [← ho]
    rfl
  show Matches _ _ (advanceLoop 1 (some i) t)
  unfold advanceLoop Action.countOn
  rw [get_bind, hx]
  dsimp only
  rw [loopContinues_stepIndex]
  by_cases hlt : x.index.toInt + 1 < x.limit.toInt
  · rw [if_pos hlt, decide_eq_true hlt, if_pos rfl, stepIndex_of_lt hlt]
    obtain ⟨h, rfl⟩ := h
    obtain ⟨outer, ho⟩ := h.loops
    have hset (y : LoopFrame) :
        At f depth (y :: loops) p { s with returns := s.returns.replaceLoop y }
          (Session.goto { s with returns := s.returns.replaceLoop y } f p) := by
      refine ⟨h.setReturns (ReturnStack.markers_congr (ReturnStack.fromMarker_setLoop y _)) ?_, rfl⟩
      exact ⟨outer, (ReturnStack.loopsOf_setLoop ho.symm y).symm⟩
    exact (hset _).branch hi ((hset _).1.at i)
  · rw [if_neg hlt, decide_eq_false hlt, if_neg Bool.false_ne_true]
    obtain ⟨s', t', hs, ht, -, h⟩ := h.dropLoop
    rw [bind_apply, hs]
    have ht' : (modify fun s => { s with
        returns := (s.returns.popLoop?.map (·.2)).getD s.returns } : Action Unit) t = .ok () t' :=
      ht
    rw [ht']
    exact .ok none () h

theorem pushIndex (h : At f depth loops p s t) (g : CallFrame) (word : String) {n : Nat}
    (hn : n < loops.length) :
    Matches (fun _ => At f depth loops p) (Action.pushIndex word loops n s)
      (runOp g (.loopIndex n) t) := by
  have hx : t.returns.loop? n = some loops[n] := by
    obtain ⟨h, rfl⟩ := h
    obtain ⟨outer, ho⟩ := h.loops
    show (ReturnStack.loopsOf s.returns.items)[n]? = _
    rw [← ho, List.getElem?_append_left hn, List.getElem?_eq_getElem hn]
  show Matches _ _ ((get >>= fun s => match s.returns.loop? n with
    | some loop => Action.push (.int loop.index)
    | none => noLoop (if n = 0 then "I" else "J") : Action Unit) t)
  rw [get_bind, hx, Action.pushIndex, List.getElem?_eq_getElem hn]
  exact h.push _

/-! ## Calls -/

/-- Leaving the word takes the frame away, and with it all that was different. -/
theorem leaveWord (h : At f depth loops p s t) (q : Nat) :
    Matches (fun _ t u => u = t ∧ t.callDepth < depth) (Action.leaveWord f s)
      (Action.leaveWord { f with next := q } t) := by
  have hb := h.beside
  obtain ⟨h, rfl⟩ := h
  rw [Session.leaveWord_eq, Session.leaveWord_eq, show (s.goto f p).returns = s.returns from rfl]
  cases he : s.returns.exitCall with
  | mk caller returns =>
    cases caller with
    | none => exact .error _ hb
    | some caller =>
      have hlt : ReturnStack.markers returns.items < depth :=
        h.callDepth ▸ Nat.lt_of_succ_le (Nat.le_of_eq (ReturnStack.markers_exitCall he).symm)
      obtain ⟨observers, hw⟩ := Session.exists_finishWord f.name { s with
        frame := caller
        returns
        calls := s.calls.tail }
      dsimp only
      rw [hw, show finishWord f.name { s.goto f p with
        frame := caller
        returns
        calls := (s.goto f p).calls.tail } = _ from hw]
      exact .ok () () ⟨rfl, hlt⟩

end At

/-- A compiled word has been called, and will go back to where the caller stands. -/
structure Called (f : CallFrame) (depth : Nat) (loops : List LoopFrame) (p : Nat)
    (s t : Session) (below : List ReturnItem) : Prop where
  beneath : Beneath f { f with next := p } below s t
  markers : ReturnStack.markers below = depth
  loops : loops <+: ReturnStack.loopsOf below
  callDepth : s.callDepth = depth + 1
  frame : ∃ index name code, s.frame = some ⟨index, name, code, 0⟩

/-- Back from the call the caller is where it was. -/
theorem Called.at {below : List ReturnItem} {s' t' : Session} (h : Called f depth loops p s t below)
    (hr : Returned f { f with next := p } below s' t') : At f depth loops p s' t' := by
  obtain ⟨hf, hi, rfl⟩ := hr
  exact ⟨⟨hf, (congrArg ReturnStack.markers hi).trans h.markers, hi ▸ h.loops⟩, rfl⟩

namespace At

theorem callCompiled (h : At f depth loops p s t) (index : Nat) (name : String) (code : Code) :
    Matches (fun _ s t => ∃ below, Called f depth loops p s t below)
      (Action.callCompiled index name code s) (Action.callCompiled index name code t) := by
  have hb := h.beside
  obtain ⟨h, rfl⟩ := h
  have hroom : (s.returns.push? (.call (some { f with next := p }))).isSome =
      (s.returns.push? (.call (some f))).isSome := by
    rw [ReturnStack.isSome_push?, ReturnStack.isSome_push?]
  unfold Action.callCompiled
  rw [get_bind, get_bind, h.frame, show (s.goto f p).frame = some { f with next := p } from rfl]
  show Matches _ ((pushReturn (.call (some f)) >>= fun _ => modify fun s => { s with
      calls := ⟨name, s.location.getD .unspecified⟩ :: s.calls
      frame := some ⟨index, name, code, 0⟩ } : Action Unit) { s with frame := none })
    ((pushReturn (.call (some { f with next := p })) >>= fun _ => modify fun s => { s with
      calls := ⟨name, s.location.getD .unspecified⟩ :: s.calls
      frame := some ⟨index, name, code, 0⟩ } : Action Unit) { s with frame := none })
  rw [bind_apply, bind_apply]
  unfold pushReturn
  dsimp only
  cases hps : s.returns.push? (.call (some f)) with
  | none =>
    rw [hps, Option.isSome_none, Option.isSome_eq_false_iff, Option.isNone_iff_eq_none] at hroom
    rw [hroom]
    exact .error _ (Beside.refl _)
  | some pushed =>
    rw [hps] at hroom
    obtain ⟨pushed', hpt⟩ := Option.isSome_iff_exists.1 hroom
    rw [hpt]
    have hi := ReturnStack.items_of_push? hps
    have hl := (ReturnStack.limit_of_push? hpt).trans (ReturnStack.limit_of_push? hps).symm
    refine .ok () () ⟨s.returns.items, ?_, h.callDepth, h.loops, ?_, index, name, code, rfl⟩
    · exact ⟨[], pushed', hi, ReturnStack.items_of_push? hpt, hl, rfl⟩
    · rw [← h.callDepth]
      exact congrArg ReturnStack.markers hi

/-- A call is over at once, or the word that is called runs. -/
theorem call (h : At f depth loops p s t) (index : Nat) :
    Matches (fun _ s t => At f depth loops p s t ∨ ∃ below, Called f depth loops p s t below)
      (Action.call index s) (Action.call index t) := by
  have hR := congruence f depth loops p
  have hd := (hR.agree h).dictionary
  unfold Action.call
  rw [get_bind, get_bind, hd]
  cases s.dictionary.get? index with
  | none =>
    exact (Matches.of_alike (hR.respects_raise _ s t h) fun _ _ => At.beside).mono
      fun _ _ _ h => .inl h
  | some entry =>
    refine Matches.bind (hR.respects_notify _ s t h) (fun _ _ => At.beside) fun _ s t h => ?_
    cases entry.body with
    | builtin word =>
      exact (Matches.of_alike (hR.respects_callBuiltin _ word s t h) fun _ _ => At.beside).mono
        fun _ _ _ h => .inl h
    | compiled code => exact (h.callCompiled index _ code).mono fun _ _ _ h => .inr h

end At

end StackLang
