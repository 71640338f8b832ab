import StackLang.Code

/-!
# The return stack

Above the marker of each call lie the loops that the called word has open and the values that it
has put aside.  No operation but `exitCall` reaches below the nearest marker.  The stack never
grows beyond its limit, and keeps count of its items.

* `items_push?`: an item goes on top, unless the stack is full.
* `exitCall_marker`: leaving a call drops what lies above its marker, and the marker.
-/

namespace StackLang

/-- A compiled word in execution: which word, its body, and the next instruction.  The frame keeps
its own hold on the body, so the word may be forgotten while it runs. -/
structure CallFrame where
  /-- The word's index in the dictionary. -/
  word : Nat
  name : String
  code : Code
  /-- The index of the next instruction. -/
  next : Nat
deriving DecidableEq

/-- A counted loop in execution. -/
structure LoopFrame where
  index : Int64
  limit : Int64
deriving DecidableEq

inductive ReturnItem where
  /-- A value put aside. -/
  | value (v : Value)
  /-- An open loop. -/
  | loop (frame : LoopFrame)
  /-- The marker of a call, with the frame of the caller unless that is the source itself. -/
  | call (caller : Option CallFrame)
deriving DecidableEq

structure ReturnStack where
  /-- The items, the topmost first. -/
  items : List ReturnItem
  limit : Nat
  depth : Nat
  depth_eq : depth = items.length

namespace ReturnStack

def empty (limit : Nat) : ReturnStack :=
  ⟨[], limit, 0, rfl⟩

/-- The stack with one more item, unless it is full. -/
def push? (r : ReturnStack) (item : ReturnItem) : Option ReturnStack :=
  if r.limit ≤ r.depth then none
  else some ⟨item :: r.items, r.limit, r.depth + 1, by simp [r.depth_eq]⟩

/-- The value on top, if a value is on top, and the stack without it. -/
def popValue? (r : ReturnStack) : Option (Value × ReturnStack) :=
  match h : r.items with
  | .value v :: rest => some (v, ⟨rest, r.limit, r.depth - 1, by simp [r.depth_eq, h]⟩)
  | _ => none

/-- The value on top, if a value is on top. -/
def peekValue? (r : ReturnStack) : Option Value :=
  match r.items with
  | .value v :: _ => some v
  | _ => none

/-- The loops of the innermost call, the innermost loop first. -/
def loopsOf : List ReturnItem → List LoopFrame
  | .loop frame :: rest => frame :: loopsOf rest
  | .value _ :: rest => loopsOf rest
  | .call _ :: _ => []
  | [] => []

/-- The loop of the innermost call that is `depth` loops further out than its innermost one. -/
def loop? (r : ReturnStack) (depth : Nat) : Option LoopFrame :=
  (loopsOf r.items)[depth]?

/-- The items with another innermost loop. -/
def setLoop (new : LoopFrame) : List ReturnItem → List ReturnItem
  | .loop _ :: rest => .loop new :: rest
  | .value v :: rest => .value v :: setLoop new rest
  | items => items

@[simp] theorem length_setLoop (new : LoopFrame) (items : List ReturnItem) :
    (setLoop new items).length = items.length := by
  fun_induction setLoop new items <;> simp_all

/-- The stack with another innermost loop. -/
def replaceLoop (r : ReturnStack) (new : LoopFrame) : ReturnStack :=
  ⟨setLoop new r.items, r.limit, r.depth, by simp [r.depth_eq]⟩

/-- The innermost loop of the innermost call, and the items without it. -/
def takeLoop? : List ReturnItem → Option (LoopFrame × List ReturnItem)
  | .loop frame :: rest => some (frame, rest)
  | .value v :: rest => (takeLoop? rest).map fun (frame, items) => (frame, .value v :: items)
  | .call _ :: _ => none
  | [] => none

theorem length_takeLoop? {items rest : List ReturnItem} {frame : LoopFrame}
    (h : takeLoop? items = some (frame, rest)) : items.length = rest.length + 1 := by
  fun_induction takeLoop? items generalizing rest with
  | case1 => simp_all
  | case2 v items ih =>
    obtain ⟨⟨_, _⟩, hi, he⟩ := Option.map_eq_some_iff.1 h
    cases he
    simp [ih hi]
  | case3 => cases h
  | case4 => cases h

/-- The innermost loop of the innermost call, and the stack without it. -/
def popLoop? (r : ReturnStack) : Option (LoopFrame × ReturnStack) :=
  match h : takeLoop? r.items with
  | some (frame, rest) =>
    some (frame, ⟨rest, r.limit, r.depth - 1, by simp [r.depth_eq, length_takeLoop? h]⟩)
  | none => none

/-- What the nearest call marker holds, if there is a marker, and the items below it, with their
number counted down from `depth`. -/
def unwind : List ReturnItem → (depth : Nat) → Option (Option CallFrame) × List ReturnItem × Nat
  | [], depth => (none, [], depth)
  | .call caller :: rest, depth => (some caller, rest, depth - 1)
  | .loop _ :: rest, depth => unwind rest (depth - 1)
  | .value _ :: rest, depth => unwind rest (depth - 1)

theorem depth_unwind (items : List ReturnItem) :
    (unwind items items.length).2.2 = (unwind items items.length).2.1.length := by
  induction items with
  | nil => rfl
  | cons item rest ih => cases item <;> simp_all [unwind]

/-- Leave the innermost call: the caller's frame, if there was a call, and the stack below it. -/
def exitCall (r : ReturnStack) : Option (Option CallFrame) × ReturnStack :=
  let result := unwind r.items r.depth
  (result.1, ⟨result.2.1, r.limit, result.2.2, by
    simp only [result, r.depth_eq]
    exact depth_unwind r.items⟩)

def clear (r : ReturnStack) : ReturnStack :=
  empty r.limit

theorem items_push? (r : ReturnStack) (item : ReturnItem) :
    (r.push? item).map items =
      if r.items.length < r.limit then some (item :: r.items) else none := by
  have hd := r.depth_eq
  unfold push?
  by_cases h : r.limit ≤ r.depth
  · rw [if_pos h, if_neg (by omega)]
    rfl
  · rw [if_neg h, if_pos (by omega)]
    rfl

/-- The items above a marker do not show once the call is left. -/
theorem exitCall_marker (r : ReturnStack) (above below : List ReturnItem)
    (caller : Option CallFrame) (habove : ∀ item ∈ above, ∀ c, item ≠ .call c)
    (h : r.items = above ++ .call caller :: below) :
    r.exitCall.1 = some caller ∧ r.exitCall.2.items = below := by
  have main (depth : Nat) : (unwind (above ++ .call caller :: below) depth).1 = some caller ∧
      (unwind (above ++ .call caller :: below) depth).2.1 = below := by
    clear h
    induction above generalizing depth with
    | nil => simp [unwind]
    | cons item above ih =>
      have rest := ih fun i hi => habove i (List.mem_cons_of_mem _ hi)
      cases item with
      | value _ => exact rest _
      | loop _ => exact rest _
      | call c => exact absurd rfl (habove _ List.mem_cons_self c)
  simpa [exitCall, h] using main r.depth

end ReturnStack

end StackLang
