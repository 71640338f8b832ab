import StackLang.Proofs.Session.Consistent

/-!
# The return stack, call by call

The markers cut the return stack into one part for each call in flight.  Values and loops come and
go in the topmost part only, and the rest of the stack, from the nearest marker on, shows again
when the call is left.

* `markers`, `fromMarker`: the number of calls, and the stack from the nearest marker on.
* `held`, `callers`: what the markers hold, and the frames among that.
* `SameBelow`: the same stack from the nearest marker on, which is all that most operations leave.
* `fromMarker_exitCall`: what shows again when a call is left.
* `unwind_above`: leaving a call ends at the marker in question, or at one above it.
-/

namespace StackLang

namespace ReturnStack

/-- The number of calls whose markers lie on the return stack. -/
def markers : List ReturnItem → Nat
  | [] => 0
  | .call _ :: rest => markers rest + 1
  | .value _ :: rest | .loop _ :: rest => markers rest

/-- The items from the nearest marker on. -/
def fromMarker : List ReturnItem → List ReturnItem
  | .value _ :: rest | .loop _ :: rest => fromMarker rest
  | items => items

/-- What the markers hold, that of the innermost call first. -/
def held (items : List ReturnItem) : List (Option CallFrame) :=
  items.filterMap fun
    | .call caller => some caller
    | _ => none

/-- The callers' frames that wait on the return stack. -/
def callers (items : List ReturnItem) : List CallFrame :=
  items.filterMap fun
    | .call caller => caller
    | _ => none

/-- The number of loops of the innermost call. -/
def openLoops (r : ReturnStack) : Nat :=
  (loopsOf r.items).length

/-- From the nearest marker on, the stack is the same. -/
structure SameBelow (r r' : ReturnStack) : Prop where
  limit : r'.limit = r.limit
  marker : fromMarker r'.items = fromMarker r.items

end ReturnStack

/-- The number of calls in flight. -/
def Session.callDepth (s : Session) : Nat :=
  ReturnStack.markers s.returns.items

namespace ReturnStack

/-! ## Items and limit -/

theorem eq_of_items {r r' : ReturnStack} (hi : r'.items = r.items) (hl : r'.limit = r.limit) :
    r' = r := by
  obtain ⟨items, limit, depth, hd⟩ := r
  obtain ⟨items', limit', depth', hd'⟩ := r'
  cases hi
  cases hl
  cases hd
  cases hd'
  rfl

theorem limit_of_push? {r r' : ReturnStack} {item : ReturnItem} (h : r.push? item = some r') :
    r'.limit = r.limit := by
  unfold push? at h
  split at h
  · cases h
  · cases h
    rfl

/-- Only the number of items decides whether there is room for another one. -/
theorem isSome_push? (r : ReturnStack) (item : ReturnItem) :
    (r.push? item).isSome = decide (r.items.length < r.limit) := by
  have hd := r.depth_eq
  unfold push?
  split <;> simp <;> omega

theorem limit_of_popValue? {r r' : ReturnStack} {v : Value} (h : r.popValue? = some (v, r')) :
    r'.limit = r.limit := by
  unfold popValue? at h
  split at h
  · cases h
    rfl
  · cases h

theorem exists_popValue? {r : ReturnStack} {v : Value} {rest : List ReturnItem}
    (h : r.items = .value v :: rest) :
    ∃ r', r.popValue? = some (v, r') ∧ r'.items = rest ∧ r'.limit = r.limit := by
  obtain ⟨items, limit, depth, hd⟩ := r
  cases h
  exact ⟨_, rfl, rfl, rfl⟩

theorem exists_popLoop? {r : ReturnStack} {x : LoopFrame} {rest : List ReturnItem}
    (h : takeLoop? r.items = some (x, rest)) :
    ∃ r', r.popLoop? = some (x, r') ∧ r'.items = rest ∧ r'.limit = r.limit := by
  unfold popLoop?
  split
  · rename_i y rest' ht
    rw [h] at ht
    cases ht
    exact ⟨_, rfl, rfl, rfl⟩
  · rename_i ht
    rw [h] at ht
    cases ht

theorem popLoop?_eq_none {r : ReturnStack} (h : takeLoop? r.items = none) :
    r.popLoop? = none := by
  unfold popLoop?
  split
  · rename_i y rest' ht
    rw [h] at ht
    cases ht
  · rfl

theorem takeLoop?_of_popLoop? {r r' : ReturnStack} {x : LoopFrame} (h : r.popLoop? = some (x, r')) :
    takeLoop? r.items = some (x, r'.items) ∧ r'.limit = r.limit := by
  unfold popLoop? at h
  split at h
  · rename_i ht
    cases h
    exact ⟨ht, rfl⟩
  · cases h

/-! ## Loops -/

theorem loopsOf_setLoop {x : LoopFrame} {items : List ReturnItem} {loops : List LoopFrame}
    (h : loopsOf items = x :: loops) (new : LoopFrame) :
    loopsOf (setLoop new items) = new :: loops := by
  induction items with
  | nil => cases h
  | cons item rest ih =>
    cases item with
    | value v => exact ih h
    | loop y =>
      cases h
      rfl
    | call c => cases h

theorem exists_takeLoop? {x : LoopFrame} {items : List ReturnItem} {loops : List LoopFrame}
    (h : loopsOf items = x :: loops) :
    ∃ rest, takeLoop? items = some (x, rest) ∧ loopsOf rest = loops := by
  induction items with
  | nil => cases h
  | cons item items ih =>
    cases item with
    | value v =>
      obtain ⟨rest, ht, hl⟩ := ih h
      exact ⟨.value v :: rest, by rw [takeLoop?, ht]; rfl, hl⟩
    | loop y =>
      cases h
      exact ⟨items, rfl, rfl⟩
    | call c => cases h

theorem loopsOf_takeLoop? {x : LoopFrame} {items rest : List ReturnItem}
    (h : takeLoop? items = some (x, rest)) : loopsOf items = x :: loopsOf rest := by
  fun_induction takeLoop? items generalizing rest with
  | case1 y rest' =>
    cases h
    rfl
  | case2 v items ih =>
    obtain ⟨⟨y, rest'⟩, hr, he⟩ := Option.map_eq_some_iff.1 h
    cases he
    have hi := ih hr
    exact hi
  | case3 => cases h
  | case4 => cases h

/-! ## The nearest marker -/

theorem markers_fromMarker (items : List ReturnItem) :
    markers (fromMarker items) = markers items := by
  induction items with
  | nil => rfl
  | cons item rest ih => cases item <;> first | rfl | exact ih

theorem markers_congr {items items' : List ReturnItem} (h : fromMarker items' = fromMarker items) :
    markers items' = markers items := by
  rw [← markers_fromMarker, h, markers_fromMarker]

theorem fromMarker_setLoop (new : LoopFrame) (items : List ReturnItem) :
    fromMarker (setLoop new items) = fromMarker items := by
  fun_induction setLoop new items with
  | case1 => rfl
  | case2 v rest ih => exact ih
  | case3 => rfl

theorem fromMarker_takeLoop? {x : LoopFrame} {items rest : List ReturnItem}
    (h : takeLoop? items = some (x, rest)) : fromMarker rest = fromMarker items := by
  fun_induction takeLoop? items generalizing rest with
  | case1 y rest' =>
    cases h
    rfl
  | case2 v items ih =>
    obtain ⟨⟨y, rest'⟩, hr, he⟩ := Option.map_eq_some_iff.1 h
    cases he
    have hi := ih hr
    exact hi
  | case3 => cases h
  | case4 => cases h

theorem fromMarker_unwind {items below : List ReturnItem} {caller : Option CallFrame}
    {depth depth' : Nat} (h : unwind items depth = (some caller, below, depth')) :
    fromMarker items = .call caller :: below := by
  fun_induction unwind items depth with
  | case1 depth => cases h
  | case2 c rest depth =>
    cases h
    rfl
  | case3 x rest depth ih | case4 v rest depth ih => exact ih h

theorem fromMarker_exitCall {r r' : ReturnStack} {caller : Option CallFrame}
    (h : r.exitCall = (some caller, r')) :
    fromMarker r.items = .call caller :: r'.items ∧ r'.limit = r.limit := by
  have hu : unwind r.items r.depth = (some caller, r'.items, (unwind r.items r.depth).2.2) :=
    Prod.ext (congrArg (·.1) h) (Prod.ext (congrArg (·.2.items) h) rfl)
  exact ⟨fromMarker_unwind hu, (congrArg (·.2.limit) h).symm⟩

theorem markers_exitCall {r r' : ReturnStack} {caller : Option CallFrame}
    (h : r.exitCall = (some caller, r')) : markers r.items = markers r'.items + 1 := by
  rw [← markers_fromMarker, (fromMarker_exitCall h).1]
  rfl

/-- Without a marker there is no call to leave. -/
theorem fromMarker_of_exitCall_eq_none {r r' : ReturnStack} (h : r.exitCall = (none, r')) :
    fromMarker r.items = [] := by
  have main (items : List ReturnItem) (depth : Nat) (hu : (unwind items depth).1 = none) :
      fromMarker items = [] := by
    fun_induction unwind items depth with
    | case1 depth => rfl
    | case2 c rest depth => cases hu
    | case3 x rest depth ih | case4 v rest depth ih => exact ih hu
  exact main r.items r.depth (congrArg (·.1) h)

/-! ## Above the nearest marker -/

theorem SameBelow.refl (r : ReturnStack) : SameBelow r r :=
  ⟨rfl, rfl⟩

theorem SameBelow.trans {r r' r'' : ReturnStack} (h : SameBelow r r') (h' : SameBelow r' r'') :
    SameBelow r r'' :=
  ⟨h'.limit.trans h.limit, h'.marker.trans h.marker⟩

theorem SameBelow.markers {r r' : ReturnStack} (h : SameBelow r r') :
    ReturnStack.markers r'.items = ReturnStack.markers r.items :=
  markers_congr h.marker

theorem sameBelow_of_pushValue {r r' : ReturnStack} {v : Value}
    (h : r.push? (.value v) = some r') : SameBelow r r' ∧ r'.openLoops = r.openLoops := by
  unfold openLoops
  refine ⟨⟨limit_of_push? h, ?_⟩, ?_⟩
  · rw [items_of_push? h, fromMarker]
  · rw [items_of_push? h, loopsOf]

theorem sameBelow_of_pushLoop {r r' : ReturnStack} {x : LoopFrame}
    (h : r.push? (.loop x) = some r') : SameBelow r r' ∧ r'.openLoops = r.openLoops + 1 := by
  unfold openLoops
  refine ⟨⟨limit_of_push? h, ?_⟩, ?_⟩
  · rw [items_of_push? h, fromMarker]
  · rw [items_of_push? h, loopsOf, List.length_cons]

theorem sameBelow_of_popValue? {r r' : ReturnStack} {v : Value}
    (h : r.popValue? = some (v, r')) : SameBelow r r' ∧ r'.openLoops = r.openLoops := by
  unfold openLoops
  refine ⟨⟨limit_of_popValue? h, ?_⟩, ?_⟩
  · rw [items_of_popValue? h, fromMarker]
  · rw [items_of_popValue? h, loopsOf]

theorem sameBelow_of_popLoop? {r r' : ReturnStack} {x : LoopFrame}
    (h : r.popLoop? = some (x, r')) : SameBelow r r' ∧ r'.openLoops + 1 = r.openLoops := by
  obtain ⟨ht, hl⟩ := takeLoop?_of_popLoop? h
  refine ⟨⟨hl, fromMarker_takeLoop? ht⟩, ?_⟩
  unfold openLoops
  rw [loopsOf_takeLoop? ht, List.length_cons]

theorem sameBelow_replaceLoop {r : ReturnStack} {x : LoopFrame} (h : r.loop? 0 = some x)
    (new : LoopFrame) :
    SameBelow r (r.replaceLoop new) ∧ (r.replaceLoop new).openLoops = r.openLoops := by
  obtain ⟨loops, hx⟩ := List.head?_eq_some_iff.1 (List.head?_eq_getElem?.trans h)
  refine ⟨⟨rfl, fromMarker_setLoop new r.items⟩, ?_⟩
  have hnew : loopsOf (r.replaceLoop new).items = new :: loops := loopsOf_setLoop hx new
  unfold openLoops
  rw [hnew, hx]
  rfl

/-- A loop that can be looked at can be dropped. -/
theorem exists_popLoop?_of_loop? {r : ReturnStack} {x : LoopFrame} (h : r.loop? 0 = some x) :
    ∃ r', r.popLoop? = some (x, r') := by
  obtain ⟨loops, hx⟩ := List.head?_eq_some_iff.1 (List.head?_eq_getElem?.trans h)
  obtain ⟨rest, ht, -⟩ := exists_takeLoop? hx
  obtain ⟨r', hr, -, -⟩ := exists_popLoop? ht
  exact ⟨r', hr⟩

/-! ## Callers -/

@[simp] theorem callers_fromMarker (items : List ReturnItem) :
    callers (fromMarker items) = callers items := by
  induction items with
  | nil => rfl
  | cons item rest ih => cases item <;> simp_all [fromMarker, callers]

theorem SameBelow.callers {r r' : ReturnStack} (h : SameBelow r r') :
    callers r'.items = callers r.items := by
  rw [← callers_fromMarker, h.marker, callers_fromMarker]

theorem callers_call (caller : Option CallFrame) (items : List ReturnItem) :
    callers (.call caller :: items) = caller.toList ++ callers items := by
  cases caller <;> rfl

theorem length_held (items : List ReturnItem) : (held items).length = markers items := by
  induction items with
  | nil => rfl
  | cons item rest ih =>
    cases item with
    | call caller => exact congrArg (· + 1) ih
    | value v | loop x => exact ih

/-- Where no word runs, no caller waits. -/
theorem callers_of_linked {items : List ReturnItem} (h : Linked none items) :
    callers items = [] := by
  induction items with
  | nil => rfl
  | cons item rest ih =>
    cases item with
    | value v => exact ih (linked_value .. ▸ h)
    | loop x => exact ih (linked_loop .. ▸ h)
    | call caller => exact h.elim

/-- The markers below hold the callers' frames, and the lowest of them holds none. -/
theorem held_of_linked {frame : Option CallFrame} {items : List ReturnItem}
    (h : Linked frame items) :
    held items = if frame.isSome then (callers items).map some ++ [none] else [] := by
  induction items generalizing frame with
  | nil =>
    cases frame with
    | none => rfl
    | some f => exact h.elim
  | cons item rest ih =>
    cases item with
    | value v => exact ih (linked_value .. ▸ h)
    | loop x => exact ih (linked_loop .. ▸ h)
    | call caller =>
      cases frame with
      | none => exact h.elim
      | some f =>
        have hrest := ih h.2
        rw [callers_call]
        cases caller with
        | none =>
          rw [callers_of_linked h.2]
          exact congrArg (none :: ·) hrest
        | some g => exact congrArg (some g :: ·) hrest

theorem length_fromMarker_le (items : List ReturnItem) :
    (fromMarker items).length ≤ items.length := by
  induction items with
  | nil => exact Nat.le_refl _
  | cons item rest ih =>
    cases item with
    | call caller => exact Nat.le_refl _
    | value v | loop x => exact Nat.le_succ_of_le ih

/-! ## Above a marker -/

variable (above : List ReturnItem)

theorem loopsOf_above (c c' : Option CallFrame) (below below' : List ReturnItem) :
    loopsOf (above ++ .call c :: below) = loopsOf (above ++ .call c' :: below') := by
  induction above with
  | nil => rfl
  | cons item above ih => cases item <;> simp [loopsOf, ih]

theorem exists_setLoop_above (new : LoopFrame) :
    ∃ above', ∀ c below, setLoop new (above ++ .call c :: below) = above' ++ .call c :: below := by
  induction above with
  | nil => exact ⟨[], fun _ _ => rfl⟩
  | cons item above ih =>
    obtain ⟨above', h⟩ := ih
    cases item with
    | value v => exact ⟨.value v :: above', fun c below => congrArg (_ :: ·) (h c below)⟩
    | loop x => exact ⟨.loop new :: above, fun _ _ => rfl⟩
    | call d => exact ⟨.call d :: above, fun _ _ => rfl⟩

theorem takeLoop?_above :
    (∀ c below, takeLoop? (above ++ .call c :: below) = none) ∨
      ∃ x above', ∀ c below, takeLoop? (above ++ .call c :: below) =
        some (x, above' ++ .call c :: below) := by
  induction above with
  | nil => exact .inl fun _ _ => rfl
  | cons item above ih =>
    cases item with
    | value v =>
      rcases ih with h | ⟨x, above', h⟩
      · exact .inl fun c below => by simp [takeLoop?, h]
      · exact .inr ⟨x, .value v :: above', fun c below => by simp [takeLoop?, h]⟩
    | loop x => exact .inr ⟨x, above, fun _ _ => rfl⟩
    | call d => exact .inl fun _ _ => rfl

/-- The nearest marker is the one in question, or one of those above it. -/
theorem unwind_above :
    (∀ c below depth, ∃ depth', unwind (above ++ .call c :: below) depth =
        (some c, below, depth')) ∨
      ∃ caller above', ∀ c below depth, ∃ depth', unwind (above ++ .call c :: below) depth =
        (some caller, above' ++ .call c :: below, depth') := by
  induction above with
  | nil => exact .inl fun _ _ _ => ⟨_, rfl⟩
  | cons item above ih =>
    cases item with
    | value v | loop x =>
      rcases ih with h | ⟨caller, above', h⟩
      · exact .inl fun c below depth => h c below (depth - 1)
      · exact .inr ⟨caller, above', fun c below depth => h c below (depth - 1)⟩
    | call d => exact .inr ⟨d, above, fun _ _ _ => ⟨_, rfl⟩⟩

theorem exists_exitCall {r : ReturnStack} {caller : Option (Option CallFrame)}
    {below : List ReturnItem} {depth : Nat} (h : unwind r.items r.depth = (caller, below, depth)) :
    ∃ r', r.exitCall = (caller, r') ∧ r'.items = below ∧ r'.limit = r.limit :=
  ⟨r.exitCall.2, Prod.ext (congrArg (·.1) h) rfl, congrArg (·.2.1) h, rfl⟩

theorem markers_append (below : List ReturnItem) :
    markers (above ++ below) = markers above + markers below := by
  induction above with
  | nil => simp [markers]
  | cons item above ih =>
    cases item with
    | call d =>
      simp only [List.cons_append, markers, ih]
      omega
    | value v | loop x => exact ih

theorem markers_above (c : Option CallFrame) (below : List ReturnItem) :
    markers below < markers (above ++ .call c :: below) := by
  rw [markers_append, markers]
  omega

end ReturnStack

end StackLang
