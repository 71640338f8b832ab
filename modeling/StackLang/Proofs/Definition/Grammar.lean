import StackLang.Proofs.Definition.Finished

/-!
# The grammar of bodies

A body as the words that it is built from, and the grammar of the bodies that are well nested.
Building a body knows no grammar: it goes from word to word, keeps the structures that are open, and
takes a word if that one fits them.

* `BodyWord`, `Definition.build`: the words of a body, and building it from them.
* `WellNested`, `Phrase`: the grammar.
* `BodyWord.next?`: the open structures behind a word.
* `kinds_compileStep`: building accepts a word if they allow it, and leaves the ones they lead to.
-/

namespace StackLang

/-- A word of a body, as it is compiled. -/
inductive BodyWord where
  | literal (v : Value)
  /-- A call of the word at an index of the dictionary. -/
  | call (builtin : Bool) (index : Nat)
  | control (w : ControlWord)
deriving DecidableEq

/-- Does the word begin a counted loop? -/
def ControlWord.opensLoop : ControlWord → Bool
  | openDo | openQueryDo => true
  | _ => false

/-- Does the word end a counted loop? -/
def ControlWord.closesLoop : ControlWord → Bool
  | closeLoop | closePlusLoop => true
  | _ => false

/-- A plain word opens and closes nothing, and needs no loop around it. -/
def BodyWord.isPlain : BodyWord → Bool
  | literal _ | call _ _ | control .exit | control .recurse => true
  | _ => false

/-! ## The grammar -/

mutual

/-- A body inside of `depth` counted loops is a list of phrases. -/
inductive WellNested : (depth : Nat) → List BodyWord → Prop
  | nil {depth : Nat} : WellNested depth []
  | cons {depth : Nat} {x ws : List BodyWord} (hx : Phrase depth x) (hws : WellNested depth ws) :
    WellNested depth (x ++ ws)

/-- A phrase is a plain word, a word that needs a loop and has one, or a whole structure. -/
inductive Phrase : (depth : Nat) → List BodyWord → Prop
  | plain {depth : Nat} {w : BodyWord} (hw : w.isPlain = true) : Phrase depth [w]
  | ifThen {depth : Nat} {a : List BodyWord} (ha : WellNested depth a) :
    Phrase depth (.control .openIf :: (a ++ [.control .closeThen]))
  | ifElse {depth : Nat} {a b : List BodyWord} (ha : WellNested depth a)
      (hb : WellNested depth b) :
    Phrase depth (.control .openIf :: (a ++ .control .openElse :: (b ++ [.control .closeThen])))
  | untilLoop {depth : Nat} {a : List BodyWord} (ha : WellNested depth a) :
    Phrase depth (.control .openBegin :: (a ++ [.control .closeUntil]))
  | again {depth : Nat} {a : List BodyWord} (ha : WellNested depth a) :
    Phrase depth (.control .openBegin :: (a ++ [.control .closeAgain]))
  | whileLoop {depth : Nat} {a b : List BodyWord} (ha : WellNested depth a)
      (hb : WellNested depth b) :
    Phrase depth
      (.control .openBegin :: (a ++ .control .openWhile :: (b ++ [.control .closeRepeat])))
  | counted {depth : Nat} {o c : ControlWord} {a : List BodyWord} (ho : o.opensLoop = true)
      (hc : c.closesLoop = true) (ha : WellNested (depth + 1) a) :
    Phrase depth (.control o :: (a ++ [.control c]))
  | leave {depth : Nat} (h : 1 ≤ depth) : Phrase depth [.control .leave]
  | unloop {depth : Nat} (h : 1 ≤ depth) : Phrase depth [.control .unloop]
  | index {depth : Nat} (h : 1 ≤ depth) : Phrase depth [.control .index]
  | outerIndex {depth : Nat} (h : 2 ≤ depth) : Phrase depth [.control .outerIndex]

end

namespace WellNested

variable {depth : Nat} {x ws : List BodyWord}

/-- Phrases may be added at the end, too. -/
theorem snoc : {ws : List BodyWord} → WellNested depth ws → Phrase depth x →
    WellNested depth (ws ++ x)
  | _, nil, hx => by simpa using cons hx nil
  | _, cons hy hws, hx => by
    rw [List.append_assoc]
    exact cons hy (hws.snoc hx)

end WellNested

/-! ## Building a body -/

/-- The step of building that a word of the body takes, at a place in the source. -/
def BodyWord.compileStep (l : Option Location) : BodyWord → Definition.Edit Unit
  | literal v => discard (Definition.emit l (.push v))
  | call builtin index =>
    discard (Definition.emit l (if builtin then .callBuiltin index else .callWord index))
  | control w => w.compileStep l

/-- Build a body, whose words stand at places in the source. -/
def Definition.build : List (Option Location × BodyWord) → Definition.Edit Unit
  | [] => pure ()
  | (l, w) :: ws => do
    w.compileStep l
    build ws

/-- The words are accepted one after the other, and the definition can be finished behind them. -/
def Definition.Accepts (d : Definition) (ws : List (Option Location × BodyWord)) : Prop :=
  ∃ code d', (do build ws; finish : Edit (Except Breach Code)) d = .ok (.ok code) d'

/-! ## The open structures -/

/-- What kind of structure is open. -/
inductive Construct.Kind where
  | ifArm | elseArm | loopHead | whileExit | counted
deriving DecidableEq

def Construct.kind : Construct → Construct.Kind
  | ifArm _ => .ifArm
  | elseArm _ => .elseArm
  | loopHead _ => .loopHead
  | whileExit _ => .whileExit
  | counted _ _ => .counted

/-- The kinds of the structures that are open behind a control word, if it is allowed inside of
those of the kinds in `σ`, the innermost first. -/
def ControlWord.next? : ControlWord → (σ : List Construct.Kind) → Option (List Construct.Kind)
  | openIf, σ => some (.ifArm :: σ)
  | openElse, .ifArm :: σ => some (.elseArm :: σ)
  | closeThen, .ifArm :: σ | closeThen, .elseArm :: σ => some σ
  | openBegin, σ => some (.loopHead :: σ)
  | closeUntil, .loopHead :: σ | closeAgain, .loopHead :: σ => some σ
  | openWhile, .loopHead :: σ => some (.whileExit :: .loopHead :: σ)
  | closeRepeat, .whileExit :: .loopHead :: σ => some σ
  | openDo, σ | openQueryDo, σ => some (.counted :: σ)
  | closeLoop, .counted :: σ | closePlusLoop, .counted :: σ => some σ
  | index, σ | leave, σ | unloop, σ => if 1 ≤ σ.count .counted then some σ else none
  | outerIndex, σ => if 2 ≤ σ.count .counted then some σ else none
  | exit, σ | recurse, σ => some σ
  | _, _ => none

/-- The kinds of the structures that are open behind a word. -/
def BodyWord.next? : BodyWord → (σ : List Construct.Kind) → Option (List Construct.Kind)
  | literal _, σ | call _ _, σ => some σ
  | control w, σ => w.next? σ

/-- The kinds of the structures that are open behind the words of a body. -/
def BodyWord.nextAll? : List BodyWord → (σ : List Construct.Kind) → Option (List Construct.Kind)
  | [], σ => some σ
  | w :: ws, σ => (w.next? σ).bind (nextAll? ws)

theorem BodyWord.nextAll?_append (ws ws' : List BodyWord) (σ : List Construct.Kind) :
    nextAll? (ws ++ ws') σ = (nextAll? ws σ).bind (nextAll? ws') := by
  induction ws generalizing σ with
  | nil => rfl
  | cons w ws ih => cases h : w.next? σ <;> simp [nextAll?, h, ih]

namespace Definition

/-- The kinds of the open structures, the innermost first. -/
def kinds (d : Definition) : List Construct.Kind :=
  d.control.map Construct.kind

theorem count_kind (control : List Construct) :
    (control.map Construct.kind).count .counted = control.countP Construct.isCounted := by
  induction control with
  | nil => rfl
  | cons c rest ih => cases c <;> simp [Construct.kind, Construct.isCounted, ih, List.countP_cons]

theorem count_kinds (d : Definition) : d.kinds.count .counted = d.loopDepth :=
  count_kind d.control

/-- `LEAVE` needs a counted loop, and opens and closes nothing. -/
theorem kinds_addLeave? (leave : Nat) (control : List Construct) :
    (addLeave? leave control).map (·.map Construct.kind) =
      if 1 ≤ (control.map Construct.kind).count .counted then some (control.map Construct.kind)
      else none := by
  rw [count_kind]
  induction control with
  | nil => rfl
  | cons c rest ih =>
    cases c with
    | counted marker leaves => simp [addLeave?, Construct.kind, Construct.isCounted]
    | _ =>
      simp only [addLeave?, List.map_cons, List.countP_cons, Construct.isCounted, Construct.kind,
        Bool.false_eq_true, if_false, Nat.add_zero, Option.map_map]
      split at ih
      · rename_i h
        obtain ⟨control', hc, he⟩ := Option.map_eq_some_iff.1 ih
        simp [hc, he, h, Construct.kind]
      · rename_i h
        rw [Option.map_eq_none_iff] at ih
        simp [ih, h]

/-- The answer of building agrees with what the open structures lead to. -/
def Follows (next : Option (List Construct.Kind)) : EStateM.Result Cause Definition Unit → Prop
  | .ok _ d => next = some d.kinds
  | .error _ _ => next = none

variable (l : Option Location) (d : Definition)

/-- A control word is accepted if the open structures allow it. -/
theorem kinds_controlStep (w : ControlWord) : Follows (w.next? d.kinds) (w.compileStep l d) := by
  have hcount := count_kinds d
  cases w with
  | openIf | openBegin | openDo | openQueryDo | exit | recurse => rfl
  | openElse | closeThen | closeUntil | closeAgain | openWhile | closeLoop | closePlusLoop =>
    simp only [ControlWord.compileStep, compileElse_eq, compileThen_eq, compileUntil_eq,
      compileAgain_eq, compileWhile_eq, compileLoop_eq]
    obtain ⟨_, _, _, _, control, _⟩ := d
    rcases control with _ | ⟨c, rest⟩
    · rfl
    · cases c <;> rfl
  | closeRepeat =>
    rw [ControlWord.compileStep, compileRepeat_eq]
    obtain ⟨_, _, _, _, control, _⟩ := d
    rcases control with _ | ⟨c, _ | ⟨c', rest⟩⟩
    · rfl
    · cases c <;> rfl
    · cases c <;> first | rfl | (cases c' <;> rfl)
  | index | outerIndex =>
    rw [ControlWord.compileStep, compileLoopIndex_eq]
    split
    · exact if_neg (by omega)
    · exact if_pos (by omega)
  | leave =>
    have ha := kinds_addLeave? d.code.size d.control
    rw [ControlWord.compileStep, compileLeave_eq]
    split
    · rename_i control h
      rw [h] at ha
      exact ha.symm
    · rename_i h
      rw [h] at ha
      exact ha.symm
  | unloop =>
    rw [ControlWord.compileStep, compileUnloop_eq]
    split
    · exact if_neg (by omega)
    · exact if_pos (by omega)

theorem kinds_compileStep (w : BodyWord) : Follows (w.next? d.kinds) (w.compileStep l d) := by
  cases w with
  | literal v | call builtin index => rfl
  | control w => exact kinds_controlStep l d w

theorem kinds_build (ws : List (Option Location × BodyWord)) (d : Definition) :
    Follows (BodyWord.nextAll? (ws.map (·.2)) d.kinds) (build ws d) := by
  induction ws generalizing d with
  | nil => rfl
  | cons x ws ih =>
    have hx := kinds_compileStep x.1 d x.2
    show Follows ((x.2.next? d.kinds).bind _) ((x.2.compileStep x.1 >>= fun _ => build ws) d)
    rw [bind_apply]
    cases hr : x.2.compileStep x.1 d with
    | ok _ d' =>
      rw [hr] at hx
      rw [show x.2.next? d.kinds = some d'.kinds from hx]
      exact ih d'
    | error c d' =>
      rw [hr] at hx
      rw [show x.2.next? d.kinds = none from hx]
      rfl

theorem sound_bodyStep {d : Definition} (h : d.Sound) (l : Option Location) (w : BodyWord) :
    After Sound (w.compileStep l d) := by
  cases w with
  | literal v => exact h.push l fun t ht => by cases ht
  | call builtin index =>
    refine h.push l fun t ht => ?_
    cases builtin <;> cases ht
  | control w => exact sound_compileStep h l w

theorem sound_build (ws : List (Option Location × BodyWord)) {d : Definition} (h : d.Sound) :
    After Sound (build ws d) := by
  induction ws generalizing d with
  | nil => exact h
  | cons x ws ih =>
    exact (sound_bodyStep h x.1 x.2).andThen fun d hd => ih hd

end Definition

end StackLang
