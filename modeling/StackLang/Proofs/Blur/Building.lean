import StackLang.Proofs.Blur.Parts

/-!
# Building a blurred definition

What the control words do to the definition that is being built does not depend on the places that
its instructions come from, nor on how its tokens were written.

* `Goes`: a step of building that goes the same way in a blurred definition.
* `goes_compileStep`, `goes_finish`: the control words, and the end of a definition.
-/

namespace StackLang.Blur

open Definition

variable (b : Blur) {α β γ : Type}

/-- The outcome of a step of building, blurred. -/
def edited (g : α → β) :
    EStateM.Result Cause Definition α → EStateM.Result Cause Definition β
  | .ok a d => .ok (g a) (b.definition d)
  | .error cause d => .error cause (b.definition d)

/-- The second step does to a blurred definition what the first one does to the definition. -/
def Goes (g : α → β) (p : Edit α) (q : Edit β) : Prop :=
  ∀ d, q (b.definition d) = b.edited g (p d)

/-- The same result in both definitions. -/
abbrev GoesAlike (p q : Edit α) : Prop :=
  b.Goes id p q

variable {b}

namespace Goes

theorem bind {δ : Type} {g : α → β} {h : γ → δ} {p : Edit α} {p' : Edit β} {q : α → Edit γ}
    {q' : β → Edit δ} (hp : b.Goes g p p') (hq : ∀ a, b.Goes h (q a) (q' (g a))) :
    b.Goes h (p >>= q) (p' >>= q') := by
  intro d
  rw [bind_apply, bind_apply, hp d]
  cases p d with
  | ok a d => exact hq a d
  | error cause d => rfl

theorem view {g : α → β} {q : Definition → Edit α} {q' : Definition → Edit β}
    (h : ∀ d, b.Goes g (q d) (q' (b.definition d))) : b.Goes g (get >>= q) (get >>= q') :=
  fun d => h d d

theorem pure (g : α → β) (a : α) : b.Goes g (Pure.pure a) (Pure.pure (g a)) :=
  fun _ => rfl

theorem throw (g : α → β) (cause : Cause) :
    b.Goes g (MonadExcept.throw cause : Edit α) (MonadExcept.throw cause) :=
  fun _ => rfl

theorem discard {p q : Edit α} (h : b.GoesAlike p q) :
    b.GoesAlike (Functor.discard p) (Functor.discard q) :=
  h.bind fun _ => pure id ()

end Goes

theorem goes_emit (l : Option Location) (op : Op) :
    b.GoesAlike (emit l op) (emit (l.map b.place) op) := by
  intro d
  rw [emit_eq, emit_eq]
  simp only [definition, push_code, size_code, edited, id]

theorem goes_changeOp (index : Nat) (f : Op → Op) :
    b.GoesAlike (changeOp index f) (changeOp index f) := by
  intro d
  show EStateM.Result.ok () { b.definition d with
    code := (b.code d.code).modify index fun x => { x with op := f x.op } } = _
  rw [modify_code]
  rfl

theorem goes_patch (target index : Nat) : b.GoesAlike (patch target index) (patch target index) :=
  goes_changeOp index _

theorem goes_openConstruct (c : Construct) :
    b.GoesAlike (openConstruct c) (openConstruct c) :=
  fun _ => rfl

theorem goes_popMatching (closer wanted : String) (accept : Construct → Option α) :
    b.GoesAlike (popMatching closer wanted accept) (popMatching closer wanted accept) := by
  intro d
  unfold popMatching
  rw [show (b.definition d).control = d.control from rfl]
  cases d.control with
  | nil => rfl
  | cons c rest =>
    dsimp only
    cases accept c <;> rfl

/-! ## The control words -/

theorem here_definition (d : Definition) : (b.definition d).here = d.here :=
  b.size_code d.code

theorem goes_compileElse (l : Option Location) :
    b.GoesAlike (compileElse l) (compileElse (l.map b.place)) :=
  (goes_popMatching _ _ _).bind fun _ => (goes_emit _ _).bind fun _ =>
    (goes_patch _ _).bind fun _ => goes_openConstruct _

theorem goes_compileThen : b.GoesAlike compileThen compileThen := by
  refine (goes_popMatching _ _ _).bind fun branch => Goes.view fun d => ?_
  rw [here_definition]
  exact goes_patch _ _

theorem goes_compileBegin : b.GoesAlike compileBegin compileBegin := by
  refine Goes.view fun d => ?_
  rw [here_definition]
  exact goes_openConstruct _

theorem goes_compileWhile (l : Option Location) :
    b.GoesAlike (compileWhile l) (compileWhile (l.map b.place)) := by
  refine Goes.view fun d => ?_
  rw [show (b.definition d).control = d.control from rfl]
  cases d.control with
  | nil => exact Goes.throw id _
  | cons c rest =>
    dsimp only
    split
    · exact (Goes.throw id _).bind fun _ => (goes_emit _ _).bind fun _ => goes_openConstruct _
    · exact (goes_emit _ _).bind fun _ => goes_openConstruct _

theorem goes_compileRepeat (l : Option Location) :
    b.GoesAlike (compileRepeat l) (compileRepeat (l.map b.place)) :=
  (goes_popMatching _ _ _).bind fun _ => (goes_popMatching _ _ _).bind fun _ =>
    (goes_emit _ _).bind fun _ => goes_patch _ _

theorem stepDirection_definition (d : Definition) (marker : Nat) :
    (b.definition d).stepDirection marker = d.stepDirection marker := by
  unfold stepDirection
  rw [show (b.definition d).code = b.code d.code from rfl, back?_code, size_code]
  cases d.code.back? with
  | none => rfl
  | some x =>
    obtain ⟨l, op⟩ := x
    cases op <;> rfl

theorem goes_forM (f : Nat → Edit Unit) (hf : ∀ i, b.GoesAlike (f i) (f i)) (indices : List Nat) :
    b.GoesAlike (indices.forM f) (indices.forM f) := by
  induction indices with
  | nil => exact Goes.pure id ()
  | cons i indices ih => exact (hf i).bind fun _ => ih

theorem goes_compileLoop (l : Option Location) (plus : Bool) :
    b.GoesAlike (compileLoop l plus) (compileLoop (l.map b.place) plus) := by
  refine (goes_popMatching _ _ _).bind fun x => Goes.view fun d => ?_
  rw [stepDirection_definition]
  exact (goes_emit _ _).bind fun back => (goes_changeOp _ _).bind fun _ =>
    goes_forM _ (goes_patch _) _

theorem goes_compileLeave (l : Option Location) :
    b.GoesAlike (compileLeave l) (compileLeave (l.map b.place)) := by
  refine Goes.view fun d => ?_
  rw [here_definition, show (b.definition d).control = d.control from rfl]
  cases addLeave? d.here d.control with
  | none => exact Goes.throw id _
  | some control => exact (goes_emit _ _).discard.bind fun _ _ => rfl

theorem goes_compileUnloop (l : Option Location) :
    b.GoesAlike (compileUnloop l) (compileUnloop (l.map b.place)) := by
  refine Goes.view fun d => ?_
  rw [show (b.definition d).loopDepth = d.loopDepth from rfl]
  split
  · exact (Goes.throw id _).bind fun _ => (goes_emit _ _).discard
  · exact (goes_emit _ _).discard

theorem goes_compileLoopIndex (l : Option Location) (word : String) (depth : Nat) :
    b.GoesAlike (compileLoopIndex l word depth)
      (compileLoopIndex (l.map b.place) word depth) := by
  refine Goes.view fun d => ?_
  rw [show (b.definition d).loopDepth = d.loopDepth from rfl]
  split
  · exact (Goes.throw id _).bind fun _ => (goes_emit _ _).discard
  · exact (goes_emit _ _).discard

/-- The control words see no difference. -/
theorem goes_compileStep (l : Option Location) (w : ControlWord) :
    b.GoesAlike (w.compileStep l) (w.compileStep (l.map b.place)) := by
  cases w with
  | openIf => exact (goes_emit _ _).bind fun _ => goes_openConstruct _
  | openElse => exact goes_compileElse l
  | closeThen => exact goes_compileThen
  | openBegin => exact goes_compileBegin
  | closeUntil | closeAgain => exact (goes_popMatching _ _ _).bind fun _ => (goes_emit _ _).discard
  | openWhile => exact goes_compileWhile l
  | closeRepeat => exact goes_compileRepeat l
  | openDo | openQueryDo => exact (goes_emit _ _).bind fun _ => goes_openConstruct _
  | closeLoop => exact goes_compileLoop l false
  | closePlusLoop => exact goes_compileLoop l true
  | index | outerIndex => exact goes_compileLoopIndex l _ _
  | leave => exact goes_compileLeave l
  | unloop => exact goes_compileUnloop l
  | exit | recurse => exact (goes_emit _ _).discard

/-- The finished code is blurred, too. -/
theorem goes_finish : b.Goes (Except.map b.code) finish finish := by
  refine Goes.view fun d => ?_
  rw [show (b.definition d).control = d.control from rfl]
  cases d.control with
  | cons c rest => exact Goes.throw _ _
  | nil =>
    refine (goes_emit none .exit).discard.bind fun _ => Goes.view fun d => ?_
    rw [show (b.definition d).code = b.code d.code from rfl, strayTarget?_code]
    cases strayTarget? d.code with
    | some x =>
      exact Goes.pure (Except.map b.code) (Except.error (Breach.strayTarget d.name x.1 x.2))
    | none =>
      refine Goes.bind (g := id) (fun _ => ?_) fun _ =>
        Goes.pure (Except.map b.code) (Except.ok d.code)
      show EStateM.Result.ok PUnit.unit { b.definition d with code := #[] } =
        .ok PUnit.unit (b.definition { d with code := #[] })
      simp [definition, code]

end StackLang.Blur
