import StackLang.Proofs.Framework.Triple

/-!
# What the control words do to a definition

One equation for each step of building: the open structures it accepts, the code and the open
structures it leaves, and the complaint about any others.

* `Code.retarget`: giving one branch its target is all that patching does.
* `compileLoop_eq`: closing a counted loop settles the loop's marker and patches its leaves.
-/

namespace StackLang

/-- The code with another target for the branch at an index. -/
def Code.retarget (code : Code) (target index : Nat) : Code :=
  code.modify index fun i => { i with op := i.op.setTarget (some target) }

@[simp] theorem Code.size_retarget (code : Code) (target index : Nat) :
    Array.size (code.retarget target index) = Array.size code :=
  Array.size_modify

/-- The code with one target for the branches at several indices. -/
def Code.retargetAll (code : Code) (target : Nat) (indices : List Nat) : Code :=
  indices.foldl (fun code => Code.retarget code target) code

@[simp] theorem Code.size_retargetAll (code : Code) (target : Nat) (indices : List Nat) :
    Array.size (code.retargetAll target indices) = Array.size code := by
  induction indices generalizing code with
  | nil => rfl
  | cons index indices ih => exact (ih (code.retarget target index)).trans (size_retarget ..)

/-- The code with the direction and the end of the loop that opens at an index. -/
def Code.settle (code : Code) (direction : LoopDirection) (behind marker : Nat) : Code :=
  code.modify marker fun i => { i with op := Definition.settleLoop direction behind i.op }

namespace Definition

variable (l : Option Location) (d : Definition)

theorem emit_discard_eq (op : Op) :
    (discard (emit l op) : Edit Unit) d = .ok () { d with code := d.code.push ⟨l, op⟩ } := rfl

theorem compileIf_eq :
    compileIf l d = .ok () { d with
      code := d.code.push ⟨l, .branchIfFalse none⟩
      control := .ifArm d.code.size :: d.control } := rfl

theorem compileElse_eq :
    compileElse l d = match d.control with
      | .ifArm branch :: rest => .ok () { d with
          code := Code.retarget (d.code.push ⟨l, .branch none⟩) (d.code.size + 1) branch
          control := .elseArm d.code.size :: rest }
      | c :: _ => .error c.unclosed d
      | [] => .error (.unmatched "ELSE" "IF") d := by
  obtain ⟨_, _, _, _, control, _⟩ := d
  rcases control with _ | ⟨c, rest⟩
  · rfl
  · cases c <;> rfl

theorem compileThen_eq :
    compileThen d = match d.control with
      | .ifArm branch :: rest | .elseArm branch :: rest => .ok () { d with
          code := Code.retarget d.code d.code.size branch
          control := rest }
      | c :: _ => .error c.unclosed d
      | [] => .error (.unmatched "THEN" "IF") d := by
  obtain ⟨_, _, _, _, control, _⟩ := d
  rcases control with _ | ⟨c, rest⟩
  · rfl
  · cases c <;> rfl

theorem compileBegin_eq :
    compileBegin d = .ok () { d with control := .loopHead d.code.size :: d.control } := rfl

theorem compileUntil_eq :
    compileUntil l d = match d.control with
      | .loopHead start :: rest => .ok () { d with
          code := d.code.push ⟨l, .branchIfFalse (some start)⟩
          control := rest }
      | c :: _ => .error c.unclosed d
      | [] => .error (.unmatched "UNTIL" "BEGIN") d := by
  obtain ⟨_, _, _, _, control, _⟩ := d
  rcases control with _ | ⟨c, rest⟩
  · rfl
  · cases c <;> rfl

theorem compileAgain_eq :
    compileAgain l d = match d.control with
      | .loopHead start :: rest => .ok () { d with
          code := d.code.push ⟨l, .branch (some start)⟩
          control := rest }
      | c :: _ => .error c.unclosed d
      | [] => .error (.unmatched "AGAIN" "BEGIN") d := by
  obtain ⟨_, _, _, _, control, _⟩ := d
  rcases control with _ | ⟨c, rest⟩
  · rfl
  · cases c <;> rfl

theorem compileWhile_eq :
    compileWhile l d = match d.control with
      | .loopHead start :: rest => .ok () { d with
          code := d.code.push ⟨l, .branchIfFalse none⟩
          control := .whileExit d.code.size :: .loopHead start :: rest }
      | c :: _ => .error c.unclosed d
      | [] => .error (.unmatched "WHILE" "BEGIN") d := by
  obtain ⟨_, _, _, _, control, _⟩ := d
  rcases control with _ | ⟨c, rest⟩
  · rfl
  · cases c <;> rfl

/-- `REPEAT` takes the `WHILE` before it looks for the `BEGIN`. -/
theorem compileRepeat_eq :
    compileRepeat l d = match d.control with
      | .whileExit branch :: .loopHead start :: rest => .ok () { d with
          code := Code.retarget (d.code.push ⟨l, .branch (some start)⟩) (d.code.size + 1) branch
          control := rest }
      | .whileExit _ :: c :: rest => .error c.unclosed { d with control := c :: rest }
      | [.whileExit _] => .error (.unmatched "REPEAT" "BEGIN") { d with control := [] }
      | c :: _ => .error c.unclosed d
      | [] => .error (.unmatched "REPEAT" "WHILE") d := by
  obtain ⟨_, _, _, _, control, _⟩ := d
  rcases control with _ | ⟨c, _ | ⟨c', rest⟩⟩
  · rfl
  · cases c <;> rfl
  · cases c <;> first | rfl | (cases c' <;> rfl)

theorem compileDo_eq (query : Bool) :
    compileDo l query d = .ok () { d with
      code := d.code.push
        ⟨l, .loop (if query then .startUnlessEqual .unknown else .start .unknown) none⟩
      control := .counted d.code.size [] :: d.control } := rfl

theorem patchAll_eq (target : Nat) (indices : List Nat) :
    (indices.forM (patch target) : Edit PUnit) d =
      .ok () { d with code := Code.retargetAll d.code target indices } := by
  induction indices generalizing d with
  | nil => rfl
  | cons index indices ih => exact ih { d with code := Code.retarget d.code target index }

theorem compileLoop_eq (plus : Bool) :
    compileLoop l plus d = match d.control with
      | .counted marker leaves :: rest => .ok () { d with
          code := Code.retargetAll
            (Code.settle
              (d.code.push ⟨l, .loop (if plus then .nextBy else .next) (some (marker + 1))⟩)
              (if plus then d.stepDirection marker else .ascending) (d.code.size + 1) marker)
            (d.code.size + 1) leaves
          control := rest }
      | c :: _ => .error c.unclosed d
      | [] => .error (.unmatched (if plus then "+LOOP" else "LOOP") "DO") d := by
  obtain ⟨_, _, _, _, control, _⟩ := d
  rcases control with _ | ⟨c, rest⟩
  · rfl
  · cases c with
    | counted marker leaves => exact patchAll_eq _ _ leaves
    | _ => rfl

theorem compileLeave_eq :
    compileLeave l d = match addLeave? d.code.size d.control with
      | some control => .ok () { d with
          code := d.code.push ⟨l, .loop .leave none⟩
          control := control }
      | none => .error (.unmatched "LEAVE" "DO") d := by
  have look (q : Definition → Edit Unit) : (get >>= q) d = q d d := rfl
  rw [compileLeave, look, show d.here = d.code.size from rfl]
  cases addLeave? d.code.size d.control <;> rfl

theorem compileUnloop_eq :
    compileUnloop l d =
      if d.loopDepth = 0 then .error (.unmatched "UNLOOP" "DO") d
      else .ok () { d with code := d.code.push ⟨l, .loop .unloop (some 0)⟩ } := by
  unfold compileUnloop
  show (if d.loopDepth = 0 then _ else _ : Edit Unit) d = _
  split <;> rfl

theorem compileLoopIndex_eq (word : String) (depth : Nat) :
    compileLoopIndex l word depth d =
      if d.loopDepth ≤ depth then .error (.unmatched word "DO") d
      else .ok () { d with code := d.code.push ⟨l, .loopIndex depth⟩ } := by
  unfold compileLoopIndex
  show (if d.loopDepth ≤ depth then _ else _ : Edit Unit) d = _
  split <;> rfl

theorem finish_eq :
    finish d = match d.control with
      | c :: _ => .error c.unclosed d
      | [] => match strayTarget? (d.code.push ⟨none, .exit⟩) with
        | some (index, target) =>
          .ok (.error (.strayTarget d.name index target)) { d with
            code := d.code.push ⟨none, .exit⟩ }
        | none => .ok (.ok (d.code.push ⟨none, .exit⟩)) { d with code := #[] } := by
  obtain ⟨word, name, location, code, control, recorded⟩ := d
  rcases control with _ | ⟨c, rest⟩
  · show (match strayTarget? (code.push ⟨none, .exit⟩) with
      | some (index, target) => _
      | none => _ : Edit (Except Breach Code)) _ = _
    cases strayTarget? (code.push ⟨none, .exit⟩) <;> rfl
  · rfl

/-! ## The entry that is reserved -/

/-- What holds of the definition behind an edit, whether it was accepted or not. -/
def After {α : Type} (P : Definition → Prop) : EStateM.Result Cause Definition α → Prop
  | .ok _ d => P d
  | .error _ d => P d

variable {d} in
theorem After.andThen {P : Definition → Prop} {p q : Edit Unit} (hp : After P (p d))
    (hq : ∀ d, P d → After P (q d)) : After P ((do p; q) d) := by
  rw [bind_apply]
  cases hr : p d with
  | ok a d' =>
    rw [hr] at hp
    exact hq d' hp
  | error c d' =>
    rw [hr] at hp
    exact hp

/-- No control word changes the entry that the definition is for. -/
theorem word_compileStep (w : ControlWord) : After (·.word = d.word) (w.compileStep l d) := by
  cases w with
  | openIf => rfl
  | openElse => simp only [ControlWord.compileStep, compileElse_eq]; split <;> rfl
  | closeThen => simp only [ControlWord.compileStep, compileThen_eq]; split <;> rfl
  | openBegin => rfl
  | closeUntil => simp only [ControlWord.compileStep, compileUntil_eq]; split <;> rfl
  | closeAgain => simp only [ControlWord.compileStep, compileAgain_eq]; split <;> rfl
  | openWhile => simp only [ControlWord.compileStep, compileWhile_eq]; split <;> rfl
  | closeRepeat => simp only [ControlWord.compileStep, compileRepeat_eq]; split <;> rfl
  | openDo | openQueryDo => rfl
  | closeLoop | closePlusLoop => simp only [ControlWord.compileStep, compileLoop_eq]; split <;> rfl
  | index | outerIndex =>
    simp only [ControlWord.compileStep, compileLoopIndex_eq]; split <;> rfl
  | leave => simp only [ControlWord.compileStep, compileLeave_eq]; split <;> rfl
  | unloop => simp only [ControlWord.compileStep, compileUnloop_eq]; split <;> rfl
  | exit | recurse => rfl

end Definition

end StackLang
