import StackLang.Proofs.Call.Markers
import StackLang.Proofs.Session.Steps
import StackLang.Proofs.Structured.Block

/-!
# Direct evaluation of bodies

What a well-nested body means, by recursion on the tree and without its code.  A branch is chosen
by the flag on the stack, a loop repeats its body, and the loops around a word are known while the
word runs.  A call of another word runs that word to its end on the machine.

* `runWhile`, `runCall`: the machine, to the end of a call.
* `Block.eval`, `Block.evalWord`: the direct evaluation of a body, and of a whole word.
-/

namespace StackLang

/-- How control leaves a part of a body. -/
inductive Flow where
  /-- At its end. -/
  | next
  /-- By `LEAVE`, to the end of the innermost loop around it. -/
  | left
  /-- By `EXIT`, with the word left. -/
  | exited
deriving Repr, DecidableEq

namespace Action

/-! ## The machine -/

/-- Run while at least `depth` calls are in flight. -/
def runWhile (depth : Nat) : (fuel : Nat) → Action Unit
  | 0 => do
    if depth ≤ (← get).callDepth then throw .outOfFuel
  | fuel + 1 => do
    if depth ≤ (← get).callDepth then
      operation
      runWhile depth fuel

/-- Run the word that is running to the end of its call. -/
def runCall (fuel : Nat) : Action Unit := do
  runWhile (← get).callDepth fuel

/-- Call a word and run it to its end. -/
def callAndRun (fuel index : Nat) : Action Unit := do
  let depth := (← get).callDepth
  call index
  runWhile (depth + 1) fuel

theorem runWhile_zero (depth : Nat) (s : Session) :
    runWhile depth 0 s = if depth ≤ s.callDepth then .error .outOfFuel s else .ok () s := by
  unfold runWhile
  rw [get_bind]
  split <;> rfl

theorem runWhile_succ (depth fuel : Nat) (s : Session) :
    runWhile depth (fuel + 1) s =
      if depth ≤ s.callDepth then match operation s with
        | .ok _ t => runWhile depth fuel t
        | .error e t => .error e t
      else .ok () s := by
  rw [runWhile, get_bind]
  split
  · rw [bind_apply]
    cases operation s <;> rfl
  · rfl

/-- With too few calls in flight there is nothing to run. -/
theorem runWhile_of_lt {depth : Nat} {s : Session} (h : s.callDepth < depth) (fuel : Nat) :
    runWhile depth fuel s = .ok () s := by
  cases fuel with
  | zero => rw [runWhile_zero, if_neg (Nat.not_le.2 h)]
  | succ fuel => rw [runWhile_succ, if_neg (Nat.not_le.2 h)]

/-! ## Parts of the direct evaluation -/

/-- Note the place of a word that is reached. -/
def visit (l : Option Location) : Action Unit :=
  modify fun s => { s with location := l.or s.location }

/-- Go on behind a part that control leaves at its end, and stop behind any other. -/
def afterNext {α : Type} (p : Action Flow) (stop : Flow → α) (q : Action α) : Action α := do
  match ← p with
  | .next => q
  | flow => pure (stop flow)

/-- Take the start and the limit of a loop, and put them in ascending order. -/
def takeBounds : Operand LoopFrame := do
  .require 2
  let start ← .popInt
  let limit ← .popInt
  pure (if limit < start then ⟨limit, start⟩ else ⟨start, limit⟩)

/-- Open a loop, unless its bounds are equal and `query` is set. -/
def openLoop (query : Bool) : Action (Option LoopFrame) := do
  let bounds ← operands takeBounds
  if query && bounds.index == bounds.limit then pure none
  else
    pushReturn (.loop bounds)
    pure (some bounds)

/-- Drop the innermost loop. -/
def dropLoop : Action Unit :=
  modify fun s => { s with returns := (s.returns.popLoop?.map (·.2)).getD s.returns }

/-- Count up by one, or drop the loop when that would reach the limit. -/
def countOn (bounds : LoopFrame) : Action (Option LoopFrame) :=
  if bounds.index.toInt + 1 < bounds.limit.toInt then do
    let bounds := { bounds with index := bounds.index + 1 }
    modify fun s => { s with returns := s.returns.replaceLoop bounds }
    pure (some bounds)
  else do
    dropLoop
    pure none

/-- Repeat a body with every index from that of `bounds` up to the limit. -/
def countUp (body : LoopFrame → Action Flow) (l : Option Location) :
    (turns : Nat) → (bounds : LoopFrame) → Action Flow
  | 0, _ => throw .outOfFuel
  | turns + 1, bounds => do
    match ← body bounds with
    | .next =>
      visit l
      match ← countOn bounds with
      | some bounds => countUp body l turns bounds
      | none => pure .next
    | .left => pure .next
    | .exited => pure .exited

/-- Take one turn after the other until one of them says how control goes on. -/
def repeatTurns (turn : Action (Option Flow)) : (turns : Nat) → Action Flow
  | 0 => throw .outOfFuel
  | turns + 1 => do
    match ← turn with
    | none => repeatTurns turn turns
    | some flow => pure flow

/-- Push the index of a loop around the word. -/
def pushIndex (word : String) (loops : List LoopFrame) (depth : Nat) : Action Unit :=
  match loops[depth]? with
  | some bounds => push (.int bounds.index)
  | none => noLoop word

/-- Call the word that is running once more.  If its entry still holds the code of the word, `again`
evaluates it. -/
def recurseWith (frame : CallFrame) (fuel : Nat) (again : Action Unit) : Action Unit := do
  let depth := (← get).callDepth
  call frame.word
  let s ← get
  if depth < s.callDepth ∧ s.frame.map (·.code) = some frame.code then again
  else runWhile (depth + 1) fuel

end Action

open Action

/-- Evaluate a body.  `loops` are the loops around it, the innermost first, and `self` is what
`RECURSE` does. -/
def Block.eval (fuel : Nat) (self : Action Unit) (frame : CallFrame) :
    (loops : List LoopFrame) → Block → Action Flow
  | _, skip => pure .next
  | loops, seq a b =>
    afterNext (a.eval fuel self frame loops) id (b.eval fuel self frame loops)
  | _, literal l v => do
    visit l
    push v
    pure .next
  | _, call l _ i => do
    visit l
    callAndRun fuel i
    pure .next
  | loops, index l => do
    visit l
    pushIndex "I" loops 0
    pure .next
  | loops, outerIndex l => do
    visit l
    pushIndex "J" loops 1
    pure .next
  | _, exit l => do
    visit l
    leaveWord frame
    pure .exited
  | _, recurse l => do
    visit l
    self
    pure .next
  | _, leave l => do
    visit l
    dropLoop
    pure .left
  | loops, ifThen l a => do
    visit l
    if ← operands .popFlag then a.eval fuel self frame loops else pure .next
  | loops, ifElse l a l' b => do
    visit l
    if ← operands .popFlag then
      afterNext (a.eval fuel self frame loops) id do
        visit l'
        pure .next
    else b.eval fuel self frame loops
  | loops, untilLoop a l =>
    repeatTurns (afterNext (a.eval fuel self frame loops) some do
      visit l
      if ← operands .popFlag then pure (some .next) else pure none) fuel
  | loops, again a l =>
    repeatTurns (afterNext (a.eval fuel self frame loops) some do
      visit l
      pure none) fuel
  | loops, whileLoop a l b l' =>
    repeatTurns (afterNext (a.eval fuel self frame loops) some do
      visit l
      if ← operands .popFlag then
        afterNext (b.eval fuel self frame loops) some do
          visit l'
          pure none
      else pure (some .next)) fuel
  | loops, counted query l a l' => do
    visit l
    match ← openLoop query with
    | some bounds => countUp (fun x => a.eval fuel self frame (x :: loops)) l' fuel bounds
    | none => pure .next

/-- Evaluate the word that is running, whose body is given, to the end of its call. -/
def Block.evalWord (b : Block) : (fuel : Nat) → Action Unit
  | 0 => throw .outOfFuel
  | fuel + 1 => do
    match (← get).frame with
    | none => pure ()
    | some frame =>
      match ← b.eval fuel (recurseWith frame fuel (b.evalWord fuel)) frame [] with
      | .next => leaveWord frame
      | _ => pure ()

end StackLang
