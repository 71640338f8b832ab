import StackLang.Proofs.Definition.Finished
import StackLang.Proofs.Framework.Triple

/-!
# Bodies and the code that is built for them

A well-nested body as a tree, the steps of building that its words take, and the code that comes out
of them.  Building goes from the first word to the last and patches branches behind it; the code is
given here by recursion on the tree, with every branch in its place from the start.

* `Block.compile`, `Block.instructions`: the steps of building, and the code.
* `Block.compile_eq`: a well-nested body is accepted, and its code is appended.
* `Block.finish_compile`: the finished code of a body that is a whole definition.
-/

namespace StackLang

/-- A well-nested body.  Each word has its place in the source. -/
inductive Block where
  | skip
  | seq (a b : Block)
  | literal (l : Option Location) (v : Value)
  /-- A call of the word at an index of the dictionary. -/
  | call (l : Option Location) (builtin : Bool) (i : Nat)
  /-- `I` -/
  | index (l : Option Location)
  /-- `J` -/
  | outerIndex (l : Option Location)
  | exit (l : Option Location)
  | recurse (l : Option Location)
  | leave (l : Option Location)
  /-- `IF a THEN` -/
  | ifThen (l : Option Location) (a : Block)
  /-- `IF a ELSE b THEN` -/
  | ifElse (l : Option Location) (a : Block) (l' : Option Location) (b : Block)
  /-- `BEGIN a UNTIL` -/
  | untilLoop (a : Block) (l : Option Location)
  /-- `BEGIN a AGAIN` -/
  | again (a : Block) (l : Option Location)
  /-- `BEGIN a WHILE b REPEAT` -/
  | whileLoop (a : Block) (l : Option Location) (b : Block) (l' : Option Location)
  /-- `DO a LOOP`, or `?DO a LOOP` if `query` is set. -/
  | counted (query : Bool) (l : Option Location) (a : Block) (l' : Option Location)

namespace Block

/-- Inside of `depth` counted loops, every `LEAVE`, `I` and `J` has the loops that it needs. -/
def WellNested : (depth : Nat) → Block → Prop
  | depth, seq a b | depth, ifElse _ a _ b | depth, whileLoop a _ b _ =>
    a.WellNested depth ∧ b.WellNested depth
  | depth, ifThen _ a | depth, untilLoop a _ | depth, again a _ => a.WellNested depth
  | depth, counted _ _ a _ => a.WellNested (depth + 1)
  | depth, leave _ | depth, index _ => 0 < depth
  | depth, outerIndex _ => 1 < depth
  | _, _ => True

instance decidableWellNested : (depth : Nat) → (b : Block) → Decidable (b.WellNested depth)
  | depth, seq a b | depth, ifElse _ a _ b | depth, whileLoop a _ b _ =>
    have := decidableWellNested depth a
    have := decidableWellNested depth b
    inferInstanceAs (Decidable (a.WellNested depth ∧ b.WellNested depth))
  | depth, ifThen _ a | depth, untilLoop a _ | depth, again a _ => decidableWellNested depth a
  | depth, counted _ _ a _ => decidableWellNested (depth + 1) a
  | depth, leave _ | depth, index _ => inferInstanceAs (Decidable (0 < depth))
  | depth, outerIndex _ => inferInstanceAs (Decidable (1 < depth))
  | _, skip | _, literal _ _ | _, call _ _ _ | _, exit _ | _, recurse _ => .isTrue trivial

open Definition

/-- The steps of building that the words of the body take, one after the other. -/
def compile : Block → Edit Unit
  | skip => pure ()
  | seq a b => do
    a.compile
    b.compile
  | literal l v => discard (emit l (.push v))
  | call l builtin i => discard (emit l (if builtin then .callBuiltin i else .callWord i))
  | index l => compileLoopIndex l "I" 0
  | outerIndex l => compileLoopIndex l "J" 1
  | exit l => discard (emit l .exit)
  | recurse l => discard (emit l .recurse)
  | leave l => compileLeave l
  | ifThen l a => do
    compileIf l
    a.compile
    compileThen
  | ifElse l a l' b => do
    compileIf l
    a.compile
    compileElse l'
    b.compile
    compileThen
  | untilLoop a l => do
    compileBegin
    a.compile
    compileUntil l
  | again a l => do
    compileBegin
    a.compile
    compileAgain l
  | whileLoop a l b l' => do
    compileBegin
    a.compile
    compileWhile l
    b.compile
    compileRepeat l'
  | counted query l a l' => do
    compileDo l query
    a.compile
    compileLoop l' false

/-! ## The code -/

/-- The number of instructions of the body. -/
def size : Block → Nat
  | skip => 0
  | seq a b => a.size + b.size
  | ifThen _ a | untilLoop a _ | again a _ => a.size + 1
  | ifElse _ a _ b | whileLoop a _ b _ => a.size + b.size + 2
  | counted _ _ a _ => a.size + 2
  | _ => 1

/-- The code of the body, if its first instruction has the index `start` and the innermost loop
around it is left for the target `out`. -/
def instructions (start : Nat) (out : Target) : Block → List Instruction
  | skip => []
  | seq a b => a.instructions start out ++ b.instructions (start + a.size) out
  | literal l v => [⟨l, .push v⟩]
  | call l builtin i => [⟨l, if builtin then .callBuiltin i else .callWord i⟩]
  | index l => [⟨l, .loopIndex 0⟩]
  | outerIndex l => [⟨l, .loopIndex 1⟩]
  | exit l => [⟨l, .exit⟩]
  | recurse l => [⟨l, .recurse⟩]
  | leave l => [⟨l, .loop .leave out⟩]
  | ifThen l a =>
    ⟨l, .branchIfFalse (some (start + 1 + a.size))⟩ :: a.instructions (start + 1) out
  | ifElse l a l' b =>
    ⟨l, .branchIfFalse (some (start + 1 + a.size + 1))⟩ :: (a.instructions (start + 1) out ++
      ⟨l', .branch (some (start + 1 + a.size + 1 + b.size))⟩ ::
        b.instructions (start + 1 + a.size + 1) out)
  | untilLoop a l => a.instructions start out ++ [⟨l, .branchIfFalse (some start)⟩]
  | again a l => a.instructions start out ++ [⟨l, .branch (some start)⟩]
  | whileLoop a l b l' =>
    a.instructions start out ++
      ⟨l, .branchIfFalse (some (start + a.size + 1 + b.size + 1))⟩ ::
        (b.instructions (start + a.size + 1) out ++ [⟨l', .branch (some start)⟩])
  | counted query l a l' =>
    ⟨l, .loop (if query then .startUnlessEqual .ascending else .start .ascending)
        (some (start + 1 + a.size + 1))⟩ ::
      (a.instructions (start + 1) (some (start + 1 + a.size + 1)) ++
        [⟨l', .loop .next (some (start + 1))⟩])

@[simp] theorem length_instructions (b : Block) (start : Nat) (out : Target) :
    (b.instructions start out).length = b.size := by
  induction b generalizing start out with
  | seq a b iha ihb => simp [instructions, size, iha, ihb]
  | ifThen l a ih | untilLoop a l ih | again a l ih => simp [instructions, size, ih]
  | ifElse l a l' b iha ihb | whileLoop a l b l' iha ihb =>
    simp only [instructions, size, List.length_cons, List.length_append, List.length_nil, iha, ihb]
    omega
  | counted query l a l' ih => simp [instructions, size, ih]
  | _ => rfl

/-- The indices of the `LEAVE`s of the innermost loop around the body, the last first. -/
def leaves (start : Nat) : Block → List Nat
  | seq a b => b.leaves (start + a.size) ++ a.leaves start
  | leave _ => [start]
  | ifThen _ a => a.leaves (start + 1)
  | ifElse _ a _ b => b.leaves (start + 1 + a.size + 1) ++ a.leaves (start + 1)
  | untilLoop a _ | again a _ => a.leaves start
  | whileLoop a _ b _ => b.leaves (start + a.size + 1) ++ a.leaves start
  | skip | literal _ _ | call _ _ _ | index _ | outerIndex _ | exit _ | recurse _
  | counted _ _ _ _ => []

end Block

/-! ## Patching -/

theorem Code.modify_middle (pre post : List Instruction) (x : Instruction)
    (f : Instruction → Instruction) :
    (pre ++ x :: post).toArray.modify pre.length f = (pre ++ f x :: post).toArray := by
  rw [List.modify_toArray, List.modify_eq_take_cons_drop (by simp)]
  simp

theorem Code.retarget_middle (pre post : List Instruction) (x : Instruction) (target : Nat) :
    Code.retarget (pre ++ x :: post).toArray target pre.length =
      (pre ++ ⟨x.location, x.op.setTarget (some target)⟩ :: post).toArray :=
  modify_middle pre post x _

theorem Code.retargetAll_append (code : Code) (target : Nat) (later earlier : List Nat) :
    Code.retargetAll code target (later ++ earlier) =
      Code.retargetAll (Code.retargetAll code target later) target earlier :=
  List.foldl_append

theorem Code.settle_middle (pre post : List Instruction) (x : Instruction)
    (direction : LoopDirection) (behind : Nat) :
    Code.settle (pre ++ x :: post).toArray direction behind pre.length =
      (pre ++ ⟨x.location, Definition.settleLoop direction behind x.op⟩ :: post).toArray :=
  modify_middle pre post x _

/-- The end of a loop gives all of its `LEAVE`s their target. -/
theorem Block.retargetAll_instructions (b : Block) (pre post : List Instruction) (start : Nat)
    (hs : pre.length = start) (target : Nat) :
    Code.retargetAll (pre ++ (b.instructions start none ++ post)).toArray target (b.leaves start) =
      (pre ++ (b.instructions start (some target) ++ post)).toArray := by
  induction b generalizing pre post start with
  | seq a b iha ihb =>
    have hb := ihb (pre ++ a.instructions start none) post (start + a.size) (by simp [hs])
    have ha := iha pre (b.instructions (start + a.size) (some target) ++ post) start hs
    simp only [List.append_assoc, instructions, leaves, Code.retargetAll_append] at ha hb ⊢
    rw [hb, ha]
  | leave l => exact hs ▸ Code.retarget_middle pre post ⟨l, .loop .leave none⟩ target
  | ifThen l a ih =>
    have ha := ih (pre ++ [⟨l, .branchIfFalse (some (start + 1 + a.size))⟩]) post
      (start + 1) (by simp [hs])
    simpa [instructions, leaves] using ha
  | ifElse l a l' b iha ihb =>
    have hb := ihb (pre ++ ⟨l, .branchIfFalse (some (start + 1 + a.size + 1))⟩ ::
      (a.instructions (start + 1) none ++
        [⟨l', .branch (some (start + 1 + a.size + 1 + b.size))⟩])) post
      (start + 1 + a.size + 1) (by simp [hs]; omega)
    have ha := iha (pre ++ [⟨l, .branchIfFalse (some (start + 1 + a.size + 1))⟩])
      (⟨l', .branch (some (start + 1 + a.size + 1 + b.size))⟩ ::
        (b.instructions (start + 1 + a.size + 1) (some target) ++ post))
      (start + 1) (by simp [hs])
    simp only [List.append_assoc, List.cons_append, List.nil_append, instructions, leaves,
      Code.retargetAll_append] at ha hb ⊢
    rw [hb, ha]
  | untilLoop a l ih =>
    simpa [instructions, leaves] using ih pre (⟨l, .branchIfFalse (some start)⟩ :: post) start hs
  | again a l ih =>
    simpa [instructions, leaves] using ih pre (⟨l, .branch (some start)⟩ :: post) start hs
  | whileLoop a l b l' iha ihb =>
    have hb := ihb (pre ++ (a.instructions start none ++
      [⟨l, .branchIfFalse (some (start + a.size + 1 + b.size + 1))⟩]))
      (⟨l', .branch (some start)⟩ :: post) (start + a.size + 1) (by simp [hs]; omega)
    have ha := iha pre (⟨l, .branchIfFalse (some (start + a.size + 1 + b.size + 1))⟩ ::
      (b.instructions (start + a.size + 1) (some target) ++ ⟨l', .branch (some start)⟩ :: post))
      start hs
    simp only [List.append_assoc, List.cons_append, List.nil_append, instructions, leaves,
      Code.retargetAll_append] at ha hb ⊢
    rw [hb, ha]
  | _ => rfl

/-! ## The open structures -/

namespace Definition

/-- The open structures with more `LEAVE`s in the innermost counted loop. -/
def addLeaves (more : List Nat) : List Construct → List Construct
  | [] => []
  | .counted marker leaves :: rest => .counted marker (more ++ leaves) :: rest
  | c :: rest => c :: addLeaves more rest

theorem addLeaves_nil (control : List Construct) : addLeaves [] control = control := by
  fun_induction addLeaves [] control <;> simp_all

theorem addLeaves_append (later earlier : List Nat) (control : List Construct) :
    addLeaves (later ++ earlier) control = addLeaves later (addLeaves earlier control) := by
  induction control with
  | nil => rfl
  | cons c rest ih => cases c <;> simp [addLeaves, ih]

@[simp] theorem countP_addLeaves (more : List Nat) (control : List Construct) :
    (addLeaves more control).countP Construct.isCounted =
      control.countP Construct.isCounted := by
  induction control with
  | nil => rfl
  | cons c rest ih => cases c <;> simp [addLeaves, Construct.isCounted, List.countP_cons, ih]

theorem addLeave?_of_pos {control : List Construct}
    (h : 0 < control.countP Construct.isCounted) (leave : Nat) :
    addLeave? leave control = some (addLeaves [leave] control) := by
  induction control with
  | nil => simp at h
  | cons c rest ih =>
    cases c with
    | counted marker leaves => rfl
    | _ =>
      simp only [List.countP_cons, Construct.isCounted, Bool.false_eq_true, if_false,
        Nat.add_zero] at h
      simp [addLeave?, addLeaves, ih h]

/-- The definition with other code and other open structures. -/
def built (d : Definition) (code : List Instruction) (control : List Construct) : Definition :=
  { d with
    code := code.toArray
    control := control }

variable (d : Definition) (code : List Instruction) (control : List Construct)
  (l : Option Location)

theorem emit_built (op : Op) :
    (discard (emit l op) : Edit Unit) (d.built code control) =
      .ok () (d.built (code ++ [⟨l, op⟩]) control) := by
  rw [emit_discard_eq]
  simp [built]

theorem compileLoopIndex_built {depth : Nat} (h : depth < control.countP Construct.isCounted)
    (word : String) :
    compileLoopIndex l word depth (d.built code control) =
      .ok () (d.built (code ++ [⟨l, .loopIndex depth⟩]) control) := by
  rw [compileLoopIndex_eq, if_neg (show ¬ (d.built code control).loopDepth ≤ depth from
    Nat.not_le.2 h)]
  simp [built]

theorem compileLeave_built (h : 0 < control.countP Construct.isCounted) :
    compileLeave l (d.built code control) =
      .ok () (d.built (code ++ [⟨l, .loop .leave none⟩]) (addLeaves [code.length] control)) := by
  rw [compileLeave_eq]
  simp [built, addLeave?_of_pos h]

theorem compileIf_built :
    compileIf l (d.built code control) =
      .ok () (d.built (code ++ [⟨l, .branchIfFalse none⟩]) (.ifArm code.length :: control)) := by
  rw [compileIf_eq]
  simp [built]

theorem compileElse_built (pre post : List Instruction) (x : Instruction) :
    compileElse l (d.built (pre ++ x :: post) (.ifArm pre.length :: control)) =
      .ok () (d.built
        (pre ++ ⟨x.location, x.op.setTarget (some (pre.length + 1 + post.length + 1))⟩ ::
          (post ++ [⟨l, .branch none⟩]))
        (.elseArm (pre.length + 1 + post.length) :: control)) := by
  rw [compileElse_eq]
  have hr := Code.retarget_middle pre (post ++ [⟨l, .branch none⟩]) x
    (pre.length + 1 + post.length + 1)
  simp only [built, List.push_toArray, List.append_assoc, List.cons_append, List.size_toArray,
    List.length_append, List.length_cons]
  rw [← Nat.add_assoc, Nat.add_right_comm pre.length, hr]

/-- The branch that `THEN` patches, behind the first arm or the second. -/
theorem compileThen_built (pre post : List Instruction) (x : Instruction) {c : Construct}
    (hc : c.armBranch? = some pre.length) :
    compileThen (d.built (pre ++ x :: post) (c :: control)) =
      .ok () (d.built (pre ++ ⟨x.location, x.op.setTarget (some (pre.length + 1 + post.length))⟩ ::
        post) control) := by
  have hr := Code.retarget_middle pre post x (pre.length + 1 + post.length)
  rw [compileThen_eq]
  cases c with
  | ifArm branch | elseArm branch =>
    cases hc
    simp only [built, List.size_toArray, List.length_append, List.length_cons]
    rw [← Nat.add_assoc, Nat.add_right_comm pre.length, hr]
  | _ => cases hc

theorem compileBegin_built :
    compileBegin (d.built code control) =
      .ok () (d.built code (.loopHead code.length :: control)) := by
  rw [compileBegin_eq]
  simp [built]

theorem compileUntil_built (start : Nat) :
    compileUntil l (d.built code (.loopHead start :: control)) =
      .ok () (d.built (code ++ [⟨l, .branchIfFalse (some start)⟩]) control) := by
  rw [compileUntil_eq]
  simp [built]

theorem compileAgain_built (start : Nat) :
    compileAgain l (d.built code (.loopHead start :: control)) =
      .ok () (d.built (code ++ [⟨l, .branch (some start)⟩]) control) := by
  rw [compileAgain_eq]
  simp [built]

theorem compileWhile_built (start : Nat) :
    compileWhile l (d.built code (.loopHead start :: control)) =
      .ok () (d.built (code ++ [⟨l, .branchIfFalse none⟩])
        (.whileExit code.length :: .loopHead start :: control)) := by
  rw [compileWhile_eq]
  simp [built]

theorem compileRepeat_built (pre post : List Instruction) (x : Instruction) (start : Nat) :
    compileRepeat l
        (d.built (pre ++ x :: post) (.whileExit pre.length :: .loopHead start :: control)) =
      .ok () (d.built
        (pre ++ ⟨x.location, x.op.setTarget (some (pre.length + 1 + post.length + 1))⟩ ::
          (post ++ [⟨l, .branch (some start)⟩])) control) := by
  have hr := Code.retarget_middle pre (post ++ [⟨l, .branch (some start)⟩]) x
    (pre.length + 1 + post.length + 1)
  rw [compileRepeat_eq]
  simp only [built, List.push_toArray, List.append_assoc, List.cons_append, List.size_toArray,
    List.length_append, List.length_cons]
  rw [← Nat.add_assoc, Nat.add_right_comm pre.length, hr]

theorem compileDo_built (query : Bool) :
    compileDo l query (d.built code control) =
      .ok () (d.built (code ++
        [⟨l, .loop (if query then .startUnlessEqual .unknown else .start .unknown) none⟩])
        (.counted code.length [] :: control)) := by
  rw [compileDo_eq]
  simp [built]

/-- The end of a counted loop settles its first instruction, and then it patches its `LEAVE`s. -/
theorem compileLoop_built (pre post : List Instruction) (x : Instruction) (leaves : List Nat) :
    compileLoop l false (d.built (pre ++ x :: post) (.counted pre.length leaves :: control)) =
      let settled := d.built
        (pre ++ ⟨x.location, settleLoop .ascending (pre.length + 1 + post.length + 1) x.op⟩ ::
          (post ++ [⟨l, .loop .next (some (pre.length + 1))⟩])) control
      .ok () { settled with
        code := Code.retargetAll settled.code (pre.length + 1 + post.length + 1) leaves } := by
  have hs := Code.settle_middle pre (post ++ [⟨l, .loop .next (some (pre.length + 1))⟩]) x
    .ascending (pre.length + 1 + post.length + 1)
  rw [compileLoop_eq]
  simp only [built, Bool.false_eq_true, if_false, List.push_toArray, List.append_assoc,
    List.cons_append, List.size_toArray, List.length_append, List.length_cons]
  rw [← Nat.add_assoc, Nat.add_right_comm pre.length, hs]

end Definition

/-! ## Building a body -/

namespace Block

open Definition

/-- A well-nested body is accepted, and its code is appended.  Its `LEAVE`s wait for the innermost
loop around it. -/
theorem compile_eq (b : Block) (d : Definition) (code : List Instruction)
    (control : List Construct) (hb : b.WellNested (control.countP Construct.isCounted)) :
    b.compile (d.built code control) =
      .ok () (d.built (code ++ b.instructions code.length none)
        (addLeaves (b.leaves code.length) control)) := by
  induction b generalizing code control with
  | skip => simp [compile, instructions, leaves, addLeaves_nil, Pure.pure, EStateM.pure]
  | seq a b iha ihb =>
    rw [compile, bind_apply, iha code control hb.1]
    dsimp only
    rw [ihb _ _ (by simpa using hb.2)]
    simp [instructions, leaves, addLeaves_append]
  | literal l v | call l builtin i | exit l | recurse l =>
    simp [compile, instructions, leaves, addLeaves_nil, emit_built]
  | index l | outerIndex l =>
    simp [compile, instructions, leaves, addLeaves_nil, compileLoopIndex_built d code control l hb]
  | leave l =>
    rw [compile, compileLeave_built d code control l hb]
    rfl
  | ifThen l a ih =>
    rw [compile, bind_apply, compileIf_built]
    dsimp only
    rw [bind_apply, ih _ _ (by simpa [Construct.isCounted, WellNested] using hb)]
    have ht := compileThen_built d (addLeaves (a.leaves (code.length + 1)) control) code
      (a.instructions (code.length + 1) none) ⟨l, .branchIfFalse none⟩ (c := .ifArm code.length) rfl
    simpa [addLeaves, instructions, leaves, Op.setTarget] using ht
  | ifElse l a l' b iha ihb =>
    have he := compileElse_built d (addLeaves (a.leaves (code.length + 1)) control) l' code
      (a.instructions (code.length + 1) none) ⟨l, .branchIfFalse none⟩
    have hsecond := ihb (code ++ ⟨l, .branchIfFalse (some (code.length + 1 + a.size + 1))⟩ ::
        (a.instructions (code.length + 1) none ++ [⟨l', .branch none⟩]))
      (.elseArm (code.length + 1 + a.size) :: addLeaves (a.leaves (code.length + 1)) control)
      (by simpa [Construct.isCounted] using hb.2)
    have ht := compileThen_built d
      (addLeaves (b.leaves (code.length + 1 + a.size + 1)) (addLeaves (a.leaves (code.length + 1))
        control))
      (code ++ ⟨l, .branchIfFalse (some (code.length + 1 + a.size + 1))⟩ ::
        a.instructions (code.length + 1) none)
      (b.instructions (code.length + 1 + a.size + 1) none) ⟨l', .branch none⟩
      (c := .elseArm (code.length + 1 + a.size)) (by simp [Construct.armBranch?]; omega)
    have hlen : code.length + (a.size + 1 + 1) = code.length + 1 + a.size + 1 := by omega
    have hlen' : code.length + (a.size + 1) = code.length + 1 + a.size := by omega
    rw [compile, bind_apply, compileIf_built]
    dsimp only
    rw [bind_apply, iha _ _ (by simpa [Construct.isCounted] using hb.1)]
    simp only [addLeaves, List.append_assoc, List.cons_append, List.nil_append, List.length_append,
      List.length_cons, List.length_nil, Nat.zero_add, length_instructions, Op.setTarget, hlen,
      hlen'] at he hsecond ht ⊢
    rw [bind_apply, he]
    dsimp only
    rw [bind_apply, hsecond]
    dsimp only
    rw [ht, instructions, leaves, addLeaves_append]
  | untilLoop a l ih =>
    rw [compile, bind_apply, compileBegin_built]
    dsimp only
    rw [bind_apply, ih _ _ (by simpa [Construct.isCounted, WellNested] using hb)]
    dsimp only [addLeaves]
    rw [compileUntil_built]
    simp [instructions, leaves]
  | again a l ih =>
    rw [compile, bind_apply, compileBegin_built]
    dsimp only
    rw [bind_apply, ih _ _ (by simpa [Construct.isCounted, WellNested] using hb)]
    dsimp only [addLeaves]
    rw [compileAgain_built]
    simp [instructions, leaves]
  | whileLoop a l b l' iha ihb =>
    rw [compile, bind_apply, compileBegin_built]
    dsimp only
    rw [bind_apply, iha _ _ (by simpa [Construct.isCounted] using hb.1)]
    dsimp only [addLeaves]
    rw [bind_apply, compileWhile_built]
    dsimp only
    rw [bind_apply, ihb _ _ (by simpa [Construct.isCounted] using hb.2)]
    have hr := compileRepeat_built d
      (addLeaves (b.leaves (code.length + a.size + 1) ++ a.leaves code.length) control) l'
      (code ++ a.instructions code.length none)
      (b.instructions (code.length + a.size + 1) none) ⟨l, .branchIfFalse none⟩ code.length
    simpa [addLeaves, addLeaves_append, instructions, leaves, Op.setTarget, Nat.add_assoc] using hr
  | counted query l a l' ih =>
    have hl := compileLoop_built d control l' code (a.instructions (code.length + 1) none)
      ⟨l, .loop (if query then .startUnlessEqual .unknown else .start .unknown) none⟩
      (a.leaves (code.length + 1))
    have hsettle : settleLoop .ascending (code.length + 1 + a.size + 1)
        (.loop (if query then .startUnlessEqual .unknown else .start .unknown) none) =
          .loop (if query then .startUnlessEqual .ascending else .start .ascending)
            (some (code.length + 1 + a.size + 1)) := by
      cases query <;> rfl
    have hr := retargetAll_instructions a (code ++
        [⟨l, .loop (if query then .startUnlessEqual .ascending else .start .ascending)
          (some (code.length + 1 + a.size + 1))⟩])
      [⟨l', .loop .next (some (code.length + 1))⟩] (code.length + 1) (by simp)
      (code.length + 1 + a.size + 1)
    rw [compile, bind_apply, compileDo_built]
    dsimp only
    rw [bind_apply, ih _ _ (by simpa [Construct.isCounted, List.countP_cons, WellNested] using hb)]
    simp only [addLeaves, List.append_assoc, List.cons_append, List.nil_append, List.append_nil,
      List.length_append, List.length_cons, List.length_nil, Nat.zero_add, length_instructions]
      at hl hr ⊢
    rw [hl, hsettle, leaves, addLeaves_nil]
    simp only [built, hr, instructions]

/-- The code of a well-nested body that is a whole definition, behind which the word is left. -/
def code (b : Block) : Code :=
  (b.instructions 0 none ++ ([⟨none, .exit⟩] : List Instruction)).toArray

theorem sound_compile (b : Block) {d : Definition} (h : d.Sound) : After Sound (b.compile d) := by
  induction b generalizing d with
  | skip => exact h
  | seq a b iha ihb => exact After.andThen (iha h) fun d hd => ihb hd
  | literal l v => exact h.push l fun t ht => by cases ht
  | call l builtin i =>
    refine h.push l fun t ht => ?_
    cases builtin <;> cases ht
  | index l => exact sound_compileLoopIndex h l _ _
  | outerIndex l => exact sound_compileLoopIndex h l _ _
  | exit l => exact h.push l fun t ht => by cases ht
  | recurse l => exact h.push l fun t ht => by cases ht
  | leave l => exact sound_compileLeave h l
  | ifThen l a ih =>
    refine After.andThen (sound_compileIf h l) fun d hd => ?_
    exact After.andThen (ih hd) fun d hd => sound_compileThen hd
  | ifElse l a l' b iha ihb =>
    refine After.andThen (sound_compileIf h l) fun d hd => ?_
    refine After.andThen (iha hd) fun d hd => ?_
    refine After.andThen (sound_compileElse hd l') fun d hd => ?_
    exact After.andThen (ihb hd) fun d hd => sound_compileThen hd
  | untilLoop a l ih =>
    refine After.andThen (sound_compileBegin h) fun d hd => ?_
    exact After.andThen (ih hd) fun d hd => sound_compileUntil hd l
  | again a l ih =>
    refine After.andThen (sound_compileBegin h) fun d hd => ?_
    exact After.andThen (ih hd) fun d hd => sound_compileAgain hd l
  | whileLoop a l b l' iha ihb =>
    refine After.andThen (sound_compileBegin h) fun d hd => ?_
    refine After.andThen (iha hd) fun d hd => ?_
    refine After.andThen (sound_compileWhile hd l) fun d hd => ?_
    exact After.andThen (ihb hd) fun d hd => sound_compileRepeat hd l'
  | counted query l a l' ih =>
    refine After.andThen (sound_compileDo h l query) fun d hd => ?_
    exact After.andThen (ih hd) fun d hd => sound_compileLoop hd l' false

/-- A well-nested body is a whole definition, whose finished code is handed over. -/
theorem finish_compile {b : Block} (hb : b.WellNested 0) (word : Nat) (name : String)
    (location : Location) :
    (do b.compile; finish : Edit (Except Breach Code)) (.opened word name location) =
      .ok (.ok b.code) (.opened word name location) := by
  have hc := b.compile_eq (.opened word name location) [] [] hb
  have hs := b.sound_compile (sound_opened word name location)
  rw [show (Definition.opened word name location).built [] [] = .opened word name location
    from rfl] at hc
  rw [hc] at hs
  have hf := Sound.finished (show Sound _ from hs) rfl
  rw [bind_apply, hc]
  dsimp only
  rw [finish_eq]
  dsimp only [addLeaves, built] at hf ⊢
  rw [strayTarget?_eq_none hf.inside]
  simp [code, opened]

theorem size_code (b : Block) : Array.size b.code = b.size + 1 := by
  simp [code]

end Block

/-! ## Code in its place -/

/-- The instructions stand in the code, the first of them at `start`. -/
def Code.Holds (code : Code) (start : Nat) (instructions : List Instruction) : Prop :=
  ∀ i x, instructions[i]? = some x → code[start + i]? = some x

namespace Code.Holds

variable {code : Code} {start : Nat} {x : Instruction} {xs ys : List Instruction}

theorem head (h : code.Holds start (x :: xs)) : code[start]? = some x :=
  h 0 x rfl

theorem tail (h : code.Holds start (x :: xs)) : code.Holds (start + 1) xs := by
  intro i y hy
  have := h (i + 1) y hy
  rwa [← Nat.add_assoc, Nat.add_right_comm] at this

theorem left (h : code.Holds start (xs ++ ys)) : code.Holds start xs := by
  intro i y hy
  obtain ⟨hi, -⟩ := List.getElem?_eq_some_iff.1 hy
  exact h i y (by rwa [List.getElem?_append_left hi])

theorem right (h : code.Holds start (xs ++ ys)) : code.Holds (start + xs.length) ys := by
  intro i y hy
  have := h (xs.length + i) y (by rw [List.getElem?_append_right (by omega)]; simpa using hy)
  rwa [← Nat.add_assoc] at this

end Code.Holds

theorem Block.holds_code (b : Block) :
    b.code.Holds 0 (b.instructions 0 none ++ [⟨none, .exit⟩]) := by
  intro i x hx
  simpa [Block.code] using hx

end StackLang
