import StackLang.Proofs.Agreement.Portable

/-!
# The same word in two sessions

Two sessions run the same portable word in different surroundings.  Below the marker of its call the
return stacks differ, also in their length, so one of them may be full before the other; apart from
that the runs concur up to the end of the call.

* `Staged`, `Abreast`, `Homeward`: two sessions side by side, inside of a call and behind it.
* `concurs_call`: the call of a portable word or of a built-in one.
* `concurs_runInstruction`: one instruction.
-/

namespace StackLang

/-- The dictionaries that two sessions know, and the sources that they read. -/
structure Scene where
  dictionary : Dictionary
  source : Pending
  dictionary' : Dictionary
  source' : Pending

/-- What the first session knows, the second one knows, too. -/
structure Scene.Fits (k : Scene) : Prop where
  roles : k.dictionary.Roles
  known : ∀ i e, k.dictionary.get? i = some e → k.dictionary'.get? i = some e

/-- Two sessions of a scene that have come equally far. -/
structure Staged (k : Scene) (s t : Session) : Prop where
  board : t.board = s.board
  builtin : t.builtin = s.builtin
  running : s.cancelled = false ∧ t.cancelled = false
  left : s.dictionary = k.dictionary ∧ s.sources = [k.source]
  right : t.dictionary = k.dictionary' ∧ t.sources = [k.source']
  portable : ∀ f ∈ s.active, f.Portable k.dictionary

/-- The same word runs in both sessions.  The marker of a call holds `c` in the first, with `below`
under it, and in the second it holds `c'`, with `below'` under it; what lies above is the same. -/
structure Abreast (k : Scene) (c c' : Option CallFrame) (below below' : List ReturnItem)
    (s t : Session) : Prop extends Staged k s t where
  frame : ∃ f, s.frame = some f ∧ t.frame = some f
  items : ∃ above, s.returns.items = above ++ .call c :: below ∧
    t.returns.items = above ++ .call c' :: below'

/-- The call has ended, and its callers go on with what lay below. -/
structure Homeward (k : Scene) (c c' : Option CallFrame) (below below' : List ReturnItem)
    (s t : Session) : Prop extends Staged k s t where
  frame : s.frame = c ∧ t.frame = c'
  items : s.returns.items = below ∧ t.returns.items = below'

open Session ReturnStack

namespace Action

variable {α β : Type} {R : Session → Session → Prop}

/-- From related sessions the runs concur, and end in related sessions if they succeed. -/
def Concordant (R : Session → Session → Prop) (p : Action α) : Prop :=
  ∀ s t, R s t → Concurs (fun _ => R) (p s) (p t)

theorem Concordant.bind {p : Action α} {q : α → Action β} (hp : Concordant R p)
    (hq : ∀ a, Concordant R (q a)) : Concordant R (p >>= q) :=
  fun s t h => (hp s t h).bind fun a s' t' h' => hq a s' t' h'

theorem Concordant.pure (a : α) : Concordant R (Pure.pure a) :=
  fun _ _ h => .ok a h

/-- There is room for the item in both sessions, or one of them says that it is full. -/
theorem concurs_pushReturn {Q : Unit → Session → Session → Prop} {item item' : ReturnItem}
    {s t : Session}
    (h : ∀ r r', s.returns.push? item = some r → t.returns.push? item' = some r' →
      Q () { s with returns := r } { t with returns := r' }) :
    Concurs Q (pushReturn item s) (pushReturn item' t) := by
  unfold pushReturn
  cases hs : s.returns.push? item with
  | none => exact .raiseLeft _ s _
  | some r =>
    cases ht : t.returns.push? item' with
    | none => exact .raiseRight _ t _
    | some r' => exact .ok () (h r r' hs ht)

/-- The session in which a compiled word has got its frame. -/
def starting (i : Nat) (name : String) (code : Code) (s : Session) (r : ReturnStack) : Session :=
  { s with
    returns := r
    calls := ⟨name, s.location.getD .unspecified⟩ :: s.calls
    frame := some ⟨i, name, code, 0⟩ }

theorem concurs_callCompiled {Q : Session → Session → Prop} {i : Nat} {name : String} {code : Code}
    {s t : Session}
    (h : ∀ r r', s.returns.push? (.call s.frame) = some r →
      t.returns.push? (.call t.frame) = some r' →
      Q (starting i name code s r) (starting i name code t r')) :
    Concurs (fun _ => Q) (callCompiled i name code s) (callCompiled i name code t) := by
  rw [callCompiled_eq, callCompiled_eq]
  cases hs : s.returns.push? (.call s.frame) with
  | none =>
    dsimp only
    exact .fullLeft ⟨_, _, rfl, rfl⟩ _
  | some r =>
    cases ht : t.returns.push? (.call t.frame) with
    | none =>
      dsimp only
      exact .fullRight ⟨_, _, rfl, rfl⟩ _
    | some r' => exact .ok () (h r r' hs ht)

/-! ## Built-in words -/

/-- The session in which the built-in word with this name has just been called. -/
def entering (name : String) (s : Session) : Session :=
  { s with
    calls := ⟨name, s.location.getD .unspecified⟩ :: s.calls
    builtin := some name }

/-- The session in which the built-in word has come to its end. -/
def leaving (s : Session) (observers : Observers) : Session :=
  { s with calls := s.calls.tail, builtin := none, observers }

theorem concurs_callBuiltin {Q Q' : Session → Session → Prop} {name : String} {w : Builtin}
    {s t : Session} (hw : Concurs (fun _ => Q) (w.run (entering name s)) (w.run (entering name t)))
    (hQ : ∀ s' t' o o', Q s' t' → Q' (leaving s' o) (leaving t' o')) :
    Concurs (fun _ => Q') (callBuiltin name w s) (callBuiltin name w t) := by
  have hrun (u : Session) : callBuiltin name w u = (w.run >>= fun _ => do
      modify fun s => { s with calls := s.calls.tail, builtin := none }
      finishWord name) (entering name u) := rfl
  rw [hrun, hrun]
  refine hw.bind fun _ s' t' h => ?_
  obtain ⟨o, ho⟩ := exists_finishWord name { s' with calls := s'.calls.tail, builtin := none }
  obtain ⟨o', ho'⟩ := exists_finishWord name { t' with calls := t'.calls.tail, builtin := none }
  rw [modify_bind, modify_bind, ho, ho']
  exact .ok () (hQ s' t' o o' h)

/-- Wherever it is called, the built-in word does the same and leaves nothing else behind. -/
theorem concurs_callBuiltin_of_concurring {name : String} {w : Builtin} {s t : Session}
    (hw : Concurring w.run) (hb : t.board = s.board) (hs : s.builtin = none)
    (ht : t.builtin = none) :
    Concurs (fun _ => Worked s t) (callBuiltin name w s) (callBuiltin name w t) := by
  have idle (u : Session) (hu : u.builtin = none) (b : Board) (x o : Observers) :
      leaving ((entering name u).setBoard b x) o = u.setBoard b o := by
    cases u
    subst hu
    rfl
  refine concurs_callBuiltin (hw _ _ ⟨hb, rfl⟩) ?_
  rintro s' t' o o' ⟨b, x, x', rfl, rfl⟩
  exact ⟨b, o, o', idle s hs b x o, idle t ht b x' o'⟩

end Action

open Action

variable {k : Scene} {c c' : Option CallFrame} {below below' : List ReturnItem}
  {s t s' t' : Session} {f g : CallFrame} {i : Nat}

namespace Abreast

section

variable (h : Abreast k c c' below below' s t)
include h

theorem word : t.currentWord = s.currentWord := by
  obtain ⟨f, hs, ht⟩ := h.frame
  rw [currentWord, currentWord, h.builtin, hs, ht]

theorem level : s.Level t :=
  ⟨h.board, h.word⟩

theorem worked (hw : Worked s t s' t') : Abreast k c c' below below' s' t' := by
  obtain ⟨b, o, o', rfl, rfl⟩ := hw
  exact ⟨⟨rfl, h.builtin, h.running, h.left, h.right, h.portable⟩, h.frame, h.items⟩

/-- What is told and where the sessions are does not matter. -/
theorem elsewhere (b : Option String) (l l' : Option Location) (calls calls' : List CallItem)
    (o o' : Observers) : Abreast k c c' below below'
      { s with builtin := b, location := l, calls, observers := o }
      { t with builtin := b, location := l', calls := calls', observers := o' } :=
  ⟨⟨h.board, rfl, h.running, h.left, h.right, h.portable⟩, h.frame, h.items⟩

/-- The word goes on at another of its instructions. -/
theorem setFrame (hf : s.frame = some f) (hc : g.code = f.code) (hw : g.word = f.word) :
    Abreast k c c' below below' { s with frame := some g } { t with frame := some g } := by
  refine ⟨⟨h.board, h.builtin, h.running, h.left, h.right, fun x hx => ?_⟩, ⟨g, rfl, rfl⟩, h.items⟩
  rcases List.mem_cons.1 hx with rfl | hx
  · have hportable := h.portable f (by simp [active, hf])
    rw [CallFrame.Portable, hc, hw]
    exact hportable
  · exact h.portable x (List.mem_append_right _ hx)

/-- Values and loops come and go above the markers. -/
theorem setReturns {above : List ReturnItem} {r r' : ReturnStack}
    (hr : r.items = above ++ .call c :: below) (hr' : r'.items = above ++ .call c' :: below')
    (hb : SameBelow s.returns r) :
    Abreast k c c' below below' { s with returns := r } { t with returns := r' } := by
  refine ⟨⟨h.board, h.builtin, h.running, h.left, h.right, fun x hx => h.portable x ?_⟩, h.frame,
    above, hr, hr'⟩
  rcases List.mem_append.1 hx with hx | hx
  · exact List.mem_append_left _ hx
  · refine List.mem_append_right _ ?_
    rwa [← hb.callers]

end

theorem concordant {α : Type} {p : Action α} (hp : Concurring p) :
    Concordant (Abreast k c c' below below') p :=
  fun s t h => (hp s t h.level).mono fun _ _ _ => h.worked

theorem concordant_pushReturn {item : ReturnItem}
    (hi : ∀ (r r' : ReturnStack), r.push? item = some r' → SameBelow r r') :
    Concordant (Abreast k c c' below below') (pushReturn item) := by
  intro s t h
  refine concurs_pushReturn fun r r' hr hr' => ?_
  obtain ⟨above, hs, ht⟩ := h.items
  have hs' : r.items = item :: above ++ .call c :: below :=
    (items_of_push? hr).trans (congrArg _ hs)
  have ht' : r'.items = item :: above ++ .call c' :: below' :=
    (items_of_push? hr').trans (congrArg _ ht)
  exact h.setReturns hs' ht' (hi _ _ hr)

/-! ## The return stack of the call -/

/-- The value on top is the same, if there is one. -/
theorem popValue? (h : Abreast k c c' below below' s t) :
    s.returns.popValue? = none ∧ t.returns.popValue? = none ∨
      ∃ v r r', s.returns.popValue? = some (v, r) ∧ t.returns.popValue? = some (v, r') ∧
        Abreast k c c' below below' { s with returns := r } { t with returns := r' } := by
  obtain ⟨above, hs, ht⟩ := h.items
  have none_of {u : Session} {d : Option CallFrame} {rest : List ReturnItem}
      (hu : u.returns.items = above ++ .call d :: rest) (ha : ∀ v rest, above ≠ .value v :: rest) :
      u.returns.popValue? = none := by
    cases hp : u.returns.popValue? with
    | none => rfl
    | some x =>
      have hi := items_of_popValue? hp
      rw [hu] at hi
      cases above with
      | nil => cases hi
      | cons item above =>
        rw [List.cons_append, List.cons.injEq] at hi
        exact (ha x.1 above (by rw [hi.1])).elim
  by_cases ha : ∃ v rest, above = .value v :: rest
  · obtain ⟨v, rest, rfl⟩ := ha
    obtain ⟨r, hr, hi, -⟩ := exists_popValue? hs
    obtain ⟨r', hr', hi', -⟩ := exists_popValue? ht
    exact .inr ⟨v, r, r', hr, hr', h.setReturns hi hi' (sameBelow_of_popValue? hr).1⟩
  · exact .inl ⟨none_of hs fun v rest hv => ha ⟨v, rest, hv⟩,
      none_of ht fun v rest hv => ha ⟨v, rest, hv⟩⟩

theorem loop? (h : Abreast k c c' below below' s t) (depth : Nat) :
    t.returns.loop? depth = s.returns.loop? depth := by
  obtain ⟨above, hs, ht⟩ := h.items
  unfold ReturnStack.loop?
  rw [hs, ht, loopsOf_above above c c' below below']

theorem replaceLoop (h : Abreast k c c' below below' s t) (x : LoopFrame) :
    Abreast k c c' below below' { s with returns := s.returns.replaceLoop x }
      { t with returns := t.returns.replaceLoop x } := by
  obtain ⟨above, hs, ht⟩ := h.items
  obtain ⟨above', ha⟩ := exists_setLoop_above above x
  exact h.setReturns ((congrArg (setLoop x) hs).trans (ha c below))
    ((congrArg (setLoop x) ht).trans (ha c' below')) ⟨rfl, fromMarker_setLoop x _⟩

/-- The innermost loop can be dropped in both sessions, or in neither of them. -/
theorem popLoop? (h : Abreast k c c' below below' s t) :
    s.returns.popLoop? = none ∧ t.returns.popLoop? = none ∨
      ∃ x r r', s.returns.popLoop? = some (x, r) ∧ t.returns.popLoop? = some (x, r') ∧
        Abreast k c c' below below' { s with returns := r } { t with returns := r' } := by
  obtain ⟨above, hs, ht⟩ := h.items
  rcases takeLoop?_above above with hn | ⟨x, above', ha⟩
  · exact .inl ⟨popLoop?_eq_none (hs ▸ hn c below), popLoop?_eq_none (ht ▸ hn c' below')⟩
  · obtain ⟨r, hr, hi, -⟩ := exists_popLoop? (hs ▸ ha c below)
    obtain ⟨r', hr', hi', -⟩ := exists_popLoop? (ht ▸ ha c' below')
    exact .inr ⟨x, r, r', hr, hr', h.setReturns hi hi' (sameBelow_of_popLoop? hr).1⟩

theorem concordant_returns (w : ReturnWord) : Concordant (Abreast k c c' below below') w.run := by
  cases w with
  | toReturn =>
    exact (concordant (concurring_operands _)).bind fun v =>
      concordant_pushReturn fun _ _ hr => (sameBelow_of_pushValue hr).1
  | fromReturn =>
    intro s t h
    unfold ReturnWord.run
    dsimp only
    rw [get_bind, get_bind]
    rcases h.popValue? with ⟨hs, ht⟩ | ⟨v, r, r', hs, ht, hr⟩
    · rw [hs, ht]
      exact concordant (concurring_operands _) s t h
    · rw [hs, ht]
      exact concordant (concurring_push v) _ _ hr
  | copyReturn =>
    intro s t h
    unfold ReturnWord.run
    dsimp only
    rw [get_bind, get_bind, peekValue?_eq, peekValue?_eq]
    rcases h.popValue? with ⟨hs, ht⟩ | ⟨v, r, r', hs, ht, -⟩
    · rw [hs, ht]
      exact concordant (concurring_operands _) s t h
    · rw [hs, ht]
      exact concordant (concurring_push v) s t h

/-! ## Calls -/

/-- A compiled word gets a frame in both sessions. -/
theorem callCompiled (h : Abreast k c c' below below' s t) {name : String} {code : Code}
    (hf : CallFrame.Portable k.dictionary ⟨i, name, code, 0⟩) :
    Concurs (fun _ => Abreast k c c' below below') (callCompiled i name code s)
      (Action.callCompiled i name code t) := by
  refine concurs_callCompiled fun r r' hs ht => ?_
  obtain ⟨f, hfs, hft⟩ := h.frame
  obtain ⟨above, his, hit⟩ := h.items
  have hi : r.items = .call (some f) :: s.returns.items := by rw [items_of_push? hs, hfs]
  have hi' : r'.items = .call (some f) :: t.returns.items := by rw [items_of_push? ht, hft]
  refine ⟨⟨h.board, h.builtin, h.running, h.left, h.right, fun x hx => ?_⟩, ⟨_, rfl, rfl⟩,
    .call (some f) :: above, hi.trans (congrArg _ his), hi'.trans (congrArg _ hit)⟩
  rcases List.mem_cons.1 hx with rfl | hx
  · exact hf
  · refine h.portable x ?_
    have hcallers : callers r.items = s.active := by
      rw [hi, callers_call, active, hfs]
    exact hcallers ▸ hx

theorem callBuiltin (h : Abreast k c c' below below' s t) {name : String} {w : Builtin}
    (hw : Concordant (Abreast k c c' below below') w.run) :
    Concurs (fun _ => Abreast k c c' below below') (callBuiltin name w s)
      (Action.callBuiltin name w t) :=
  concurs_callBuiltin (hw _ _ (h.elsewhere (some name) s.location t.location _ _ s.observers
    t.observers)) fun _ _ o o' h' => h'.elsewhere none _ _ _ _ o o'

/-- Both sessions know the word, and do the same with it. -/
theorem concurs_call (hk : k.Fits) (h : Abreast k c c' below below' s t)
    (hi : k.dictionary.Callable k.dictionary.Portable i) :
    Concurs (fun _ => Abreast k c c' below below') (call i s) (call i t) := by
  have told (x : Event) : Abreast k c c' below below'
      { s with observers := s.observers.record x } { t with observers := t.observers.record x } :=
    ⟨⟨h.board, h.builtin, h.running, h.left, h.right, h.portable⟩, h.frame, h.items⟩
  have left {e : Entry} (he : k.dictionary.get? i = some e) : s.dictionary.get? i = some e := by
    rw [h.left.1, he]
  have right {e : Entry} (he : k.dictionary.get? i = some e) : t.dictionary.get? i = some e := by
    rw [h.right.1, hk.known i e he]
  rcases hi with hp | ⟨e, w, he, hb, hi, hw⟩
  · obtain ⟨e, code, he, -, hb, hf⟩ := hp.frame
    rw [call_of_compiled (left he) hb, call_of_compiled (right he) hb]
    exact (told _).callCompiled (hf e.name 0)
  · rw [call_of_builtin (left he) hb, call_of_builtin (right he) hb]
    refine (told _).callBuiltin ?_
    rcases hw with hw | ⟨r, rfl⟩
    · exact concordant (concurring_of_roles hk.roles he hi hb hw)
    · exact concordant_returns r

/-! ## Jumps and loops -/

theorem concordant_jump (target : Target) :
    Concordant (Abreast k c c' below below') (jump target) := by
  intro s t h
  obtain ⟨f, hs, ht⟩ := h.frame
  unfold jump
  rw [hs, ht]
  cases target with
  | none => exact .error rfl h.board
  | some index =>
    dsimp only
    split
    · exact .ok () (h.setFrame hs rfl rfl)
    · exact .error rfl h.board

theorem concordant_closeLoop (word : String) :
    Concordant (Abreast k c c' below below') (closeLoop word) := by
  intro s t h
  unfold closeLoop
  rw [get_bind, get_bind]
  rcases h.popLoop? with ⟨hs, ht⟩ | ⟨x, r, r', hs, ht, hr⟩
  · rw [hs, ht]
    exact concordant (concurring_raise _) s t h
  · rw [hs, ht]
    exact .ok () hr

theorem concordant_advanceLoop (step : Int64) (target : Target) :
    Concordant (Abreast k c c' below below') (advanceLoop step target) := by
  intro s t h
  unfold advanceLoop
  rw [get_bind, get_bind, h.loop?]
  cases s.returns.loop? 0 with
  | none => exact concordant (concurring_raise _) s t h
  | some x =>
    dsimp only
    split
    · exact concordant_jump target _ _ (h.replaceLoop _)
    · rcases h.popLoop? with ⟨hs, ht⟩ | ⟨x, r, r', hs, ht, hr⟩
      · refine .ok () ?_
        dsimp only
        rw [hs, ht]
        exact h
      · refine .ok () ?_
        dsimp only
        rw [hs, ht]
        exact hr

theorem concordant_runLoop (kind : LoopKind) (target : Target) :
    Concordant (Abreast k c c' below below') (runLoop kind target) := by
  have bounds (direction : LoopDirection) :
      Concordant (Abreast k c c' below below') (popBounds direction) :=
    concordant (concurring_operands _)
  have opens (x : LoopFrame) : Concordant (Abreast k c c' below below') (pushReturn (.loop x)) :=
    concordant_pushReturn fun _ _ hr => (sameBelow_of_pushLoop hr).1
  cases kind with
  | start direction => exact (bounds direction).bind opens
  | startUnlessEqual direction =>
    refine (bounds direction).bind fun x => ?_
    split
    · exact concordant_jump target
    · exact opens x
  | next => exact concordant_advanceLoop 1 target
  | nextBy =>
    exact (concordant (concurring_operands _)).bind fun step => concordant_advanceLoop step target
  | leave => exact (concordant_closeLoop _).bind fun _ => concordant_jump target
  | unloop => exact concordant_closeLoop _

/-! ## Instructions -/

/-- Every operation but the one that leaves the word. -/
theorem concurs_runOp (hk : k.Fits) {op : Op} (hop : op ≠ .exit)
    (hc : ∀ i, op.callee? f.word = some i → k.dictionary.Callable k.dictionary.Portable i)
    (h : Abreast k c c' below below' s t) :
    Concurs (fun _ => Abreast k c c' below below') (runOp f op s) (runOp f op t) := by
  cases op with
  | callBuiltin index | callWord index => exact concurs_call hk h (hc index rfl)
  | push v => exact concordant (concurring_push v) s t h
  | branch target => exact concordant_jump target s t h
  | branchIfFalse target =>
    refine Concordant.bind (concordant (concurring_operands _)) (fun b => ?_) s t h
    split
    · exact concordant_jump target
    · exact Concordant.pure ()
  | loop kind target => exact concordant_runLoop kind target s t h
  | loopIndex depth =>
    unfold runOp
    dsimp only
    rw [get_bind, get_bind, h.loop?]
    cases s.returns.loop? depth with
    | none => exact concordant (concurring_raise _) s t h
    | some x => exact concordant (concurring_push _) s t h
  | exit => exact (hop rfl).elim
  | recurse => exact concurs_call hk h (hc f.word rfl)

/-- Above a marker there is one for every frame, so the caller of a word that was called above it is
a word. -/
theorem not_linked_none (above : List ReturnItem) (c : Option CallFrame)
    (below : List ReturnItem) : ¬ Linked none (above ++ .call c :: below) := by
  intro hl
  have hheld := congrArg List.length (held_of_linked hl)
  rw [length_held, markers_append] at hheld
  simp [markers] at hheld

/-- Leaving the word leads back to a word above the marker, or ends the call. -/
theorem concurs_leaveWord (hs : s.frame = some g) (hl : Linked s.frame s.returns.items)
    (h : Abreast k c c' below below' s t) :
    Concurs (fun _ s t => Abreast k c c' below below' s t ∨ Homeward k c c' below below' s t)
      (leaveWord f s) (leaveWord f t) := by
  obtain ⟨above, his, hit⟩ := h.items
  obtain ⟨caller, hcaller, -, hlinked⟩ := linked_exitCall (hs ▸ hl)
  have portable {r : ReturnStack} (hr : s.returns.exitCall = (some caller, r)) :
      ∀ x ∈ caller.toList ++ callers r.items, x.Portable k.dictionary := by
    intro x hx
    refine h.portable x (List.mem_append_right _ ?_)
    rwa [← callers_fromMarker, (fromMarker_exitCall hr).1, callers_call]
  have told {r r' : ReturnStack} (hr : s.returns.exitCall = (some caller, r)) (d : Option CallFrame)
      (hr' : t.returns.exitCall = (some d, r'))
      (hQ : ∀ o o', Abreast k c c' below below'
          { s with frame := caller, returns := r, calls := s.calls.tail, observers := o }
          { t with frame := d, returns := r', calls := t.calls.tail, observers := o' } ∨
        Homeward k c c' below below'
          { s with frame := caller, returns := r, calls := s.calls.tail, observers := o }
          { t with frame := d, returns := r', calls := t.calls.tail, observers := o' }) :
      Concurs (fun _ s t => Abreast k c c' below below' s t ∨ Homeward k c c' below below' s t)
        (leaveWord f s) (leaveWord f t) := by
    rw [leaveWord_eq, leaveWord_eq, hr, hr']
    dsimp only
    obtain ⟨o, ho⟩ := exists_finishWord f.name
      { s with frame := caller, returns := r, calls := s.calls.tail }
    obtain ⟨o', ho'⟩ := exists_finishWord f.name
      { t with frame := d, returns := r', calls := t.calls.tail }
    rw [ho, ho']
    exact .ok () (hQ o o')
  rcases unwind_above above with hu | ⟨d, above', hu⟩
  · obtain ⟨depth, hus⟩ := hu c below s.returns.depth
    obtain ⟨depth', hut⟩ := hu c' below' t.returns.depth
    obtain ⟨r, hr, hi, -⟩ := exists_exitCall (his ▸ hus)
    obtain ⟨r', hr', hi', -⟩ := exists_exitCall (hit ▸ hut)
    obtain rfl : c = caller := by
      rw [hr] at hcaller
      exact Option.some.inj hcaller
    refine told hr c' hr' fun o o' => .inr ⟨⟨h.board, h.builtin, h.running, h.left, h.right,
      portable hr⟩, ⟨rfl, rfl⟩, hi, hi'⟩
  · obtain ⟨depth, hus⟩ := hu c below s.returns.depth
    obtain ⟨depth', hut⟩ := hu c' below' t.returns.depth
    obtain ⟨r, hr, hi, -⟩ := exists_exitCall (his ▸ hus)
    obtain ⟨r', hr', hi', -⟩ := exists_exitCall (hit ▸ hut)
    obtain rfl : d = caller := by
      rw [hr] at hcaller
      exact Option.some.inj hcaller
    rw [hr] at hlinked
    obtain ⟨g, rfl⟩ : ∃ g, d = some g := by
      cases d with
      | some g => exact ⟨g, rfl⟩
      | none => exact (not_linked_none above' c below (hi ▸ hlinked)).elim
    exact told hr (some g) hr' fun o o' => .inl ⟨⟨h.board, h.builtin, h.running, h.left, h.right,
      portable hr⟩, ⟨g, rfl, rfl⟩, above', hi, hi'⟩

/-- An instruction of the word, and what is behind the call if it is the last one. -/
theorem concurs_runInstruction (hk : k.Fits) (hs : s.frame = some f)
    (hl : Linked s.frame s.returns.items) (h : Abreast k c c' below below' s t) :
    Concurs (fun _ s t => Abreast k c c' below below' s t ∨ Homeward k c c' below below' s t)
      (runInstruction f s) (runInstruction f t) := by
  cases hx : f.code[f.next]? with
  | none =>
    unfold runInstruction
    rw [hx]
    exact .error rfl h.board
  | some x =>
    rw [runInstruction_eq hx, runInstruction_eq hx]
    have hnext : Abreast k c c' below below'
        { s with frame := some { f with next := f.next + 1 }, location := x.location.or s.location }
        { t with
          frame := some { f with next := f.next + 1 }
          location := x.location.or t.location } := by
      have hg := h.setFrame (g := { f with next := f.next + 1 }) hs rfl rfl
      exact ⟨⟨hg.board, hg.builtin, hg.running, hg.left, hg.right, hg.portable⟩, hg.frame, hg.items⟩
    by_cases hop : x.op = .exit
    · rw [hop]
      refine concurs_leaveWord (g := { f with next := f.next + 1 }) rfl ?_ hnext
      rwa [hs, linked_congr (g := { f with next := f.next + 1 })] at hl
    · refine (concurs_runOp hk hop (fun i hi => ?_) hnext).mono fun _ _ _ => .inl
      exact h.portable f (by simp [active, hs]) i ⟨x, Array.mem_of_getElem? hx, hi⟩

end Abreast

end StackLang
