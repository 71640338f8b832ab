import StackLang.Proofs.Definition.Grammar
import StackLang.Proofs.Saved.Places

/-!
# The words of a body

What a lexeme adds to a definition depends on what names stand for, and not on places.  So the
lexemes of a body, together with the words that were there before it, determine its code.

* `Definition.skeleton`: a definition that is being built, without its name and its places.
* `skeleton_build`: building does not look at places.
* `Lexeme.effect?`: the words that a lexeme adds to a body.
* `Dictionary.extend?`: a definition with one more lexeme.
* `Lexeme.interlude?`, `Dictionary.proper`: lexemes that run a word and add nothing, and a body
  without them.
-/

namespace StackLang

namespace Definition

/-- The code and the open structures, without name and places. -/
def skeleton (d : Definition) : Definition :=
  ⟨0, "", .unspecified, d.code.unplaced, d.control, #[]⟩

/-- The skeleton of a definition that has just been opened. -/
def bare : Definition :=
  ⟨0, "", .unspecified, #[], [], #[]⟩

theorem skeleton_opened (word : Nat) (name : String) (location : Location) :
    (opened word name location).skeleton = bare := by
  simp [skeleton, opened, bare, Code.unplaced]

/-- The answer of an edit, with the skeleton of the definition. -/
def skeletonOf {α : Type} : EStateM.Result Cause Definition α → EStateM.Result Cause Definition α
  | .ok a d => .ok a d.skeleton
  | .error c d => .error c d.skeleton

variable (l : Option Location) (d : Definition)

theorem skeleton_emit (op : Op) :
    (discard (emit none op) : Edit Unit) d.skeleton =
      skeletonOf ((discard (emit l op) : Edit Unit) d) := by
  simp [emit_discard_eq, skeletonOf, skeleton]

theorem stepDirection_skeleton (marker : Nat) :
    d.skeleton.stepDirection marker = d.stepDirection marker := by
  unfold stepDirection skeleton
  simp only [Code.back?_unplaced, Code.size_unplaced]
  cases Array.back? d.code with
  | none => rfl
  | some x =>
    obtain ⟨_, op⟩ := x
    cases op <;> rfl

/-- A control word does not look at places. -/
theorem skeleton_controlStep (w : ControlWord) :
    w.compileStep none d.skeleton = skeletonOf (w.compileStep l d) := by
  have hdir := stepDirection_skeleton d
  cases w with
  | openIf => simp [ControlWord.compileStep, compileIf_eq, skeletonOf, skeleton]
  | openBegin => simp [ControlWord.compileStep, compileBegin_eq, skeletonOf, skeleton]
  | openDo | openQueryDo => simp [ControlWord.compileStep, compileDo_eq, skeletonOf, skeleton]
  | exit | recurse => exact skeleton_emit l d _
  | openElse | closeThen | closeUntil | closeAgain | openWhile | closeLoop | closePlusLoop =>
    simp only [ControlWord.compileStep, compileElse_eq, compileThen_eq, compileUntil_eq,
      compileAgain_eq, compileWhile_eq, compileLoop_eq, hdir]
    obtain ⟨_, _, _, _, control, _⟩ := d
    rcases control with _ | ⟨c, rest⟩
    · rfl
    · cases c <;> simp [skeletonOf, skeleton]
  | closeRepeat =>
    simp only [ControlWord.compileStep, compileRepeat_eq]
    obtain ⟨_, _, _, _, control, _⟩ := d
    rcases control with _ | ⟨c, _ | ⟨c', rest⟩⟩
    · rfl
    · cases c <;> simp [skeletonOf, skeleton]
    · cases c <;> cases c' <;> simp [skeletonOf, skeleton]
  | index | outerIndex =>
    simp only [ControlWord.compileStep, compileLoopIndex_eq]
    rw [show d.skeleton.loopDepth = d.loopDepth from rfl]
    split <;> simp [skeletonOf, skeleton]
  | leave =>
    simp only [ControlWord.compileStep, compileLeave_eq]
    rw [show Array.size d.skeleton.code = Array.size d.code from Code.size_unplaced d.code,
      show d.skeleton.control = d.control from rfl]
    cases addLeave? (Array.size d.code) d.control <;> simp [skeletonOf, skeleton]
  | unloop =>
    simp only [ControlWord.compileStep, compileUnloop_eq]
    rw [show d.skeleton.loopDepth = d.loopDepth from rfl]
    split <;> simp [skeletonOf, skeleton]

theorem skeleton_compileStep (w : BodyWord) :
    w.compileStep none d.skeleton = skeletonOf (w.compileStep l d) := by
  cases w with
  | literal v => exact skeleton_emit l d _
  | call builtin index => exact skeleton_emit l d _
  | control w => exact skeleton_controlStep l d w

/-- The words, all at one place. -/
def placed (l : Option Location) (ws : List BodyWord) : List (Option Location × BodyWord) :=
  ws.map fun w => (l, w)

theorem build_singleton (w : BodyWord) : build (placed l [w]) d = w.compileStep l d := by
  show (w.compileStep l >>= fun _ => pure ()) d = _
  rw [bind_apply]
  cases w.compileStep l d <;> rfl

/-- Building does not look at places. -/
theorem skeleton_build (ws : List BodyWord) (d : Definition) :
    build (placed none ws) d.skeleton = skeletonOf (build (placed l ws) d) := by
  induction ws generalizing d with
  | nil => rfl
  | cons w ws ih =>
    show (w.compileStep none >>= fun _ => build (placed none ws)) d.skeleton =
      skeletonOf ((w.compileStep l >>= fun _ => build (placed l ws)) d)
    rw [bind_apply, bind_apply, skeleton_compileStep l d w]
    cases w.compileStep l d with
    | ok a d' => exact ih d'
    | error c d' => rfl

end Definition

/-! ## Lexemes -/

/-- The words that a lexeme adds to the body of a definition, and whether it makes the word
immediate that is being defined.  A lexeme that ends the definition, or that runs a word which is
not built in, adds none. -/
def Lexeme.effect? (d : Dictionary) : Lexeme → Option (List BodyWord × Bool)
  | .number n => some ([.literal (.ofNumber n)], false)
  | .string .display _ => some ([], false)
  | .string .push text =>
    some ([.literal (.string text), .literal (.int (Int64.ofNat text.length))], false)
  | .string .print text => (d.find? "TYPE").map fun (i, _) =>
    ([.literal (.string text), .literal (.int (Int64.ofNat text.length)), .call true i], false)
  | .word name => (d.find? name).bind fun (i, e) =>
    if e.immediate then
      match e.body with
      | .builtin (.control w) => some ([.control w], false)
      | .builtin (.defining .immediate) => some ([], true)
      | _ => none
    else some ([.call e.isBuiltin i], false)

namespace Dictionary

variable {d d' : Dictionary}

/-- A definition with one more lexeme in its body, and whether it has become immediate. -/
def extend? (d : Dictionary) (y : Definition × Bool) (x : Lexeme) : Option (Definition × Bool) :=
  (x.effect? d).bind fun (ws, marks) =>
    match Definition.build (Definition.placed none ws) y.1 with
    | .ok _ y' => some (y', y.2 || marks)
    | .error _ _ => none

/-- What the lexemes of a body make of a definition. -/
def assemble? (d : Dictionary) (xs : List Lexeme) (y : Definition × Bool) :
    Option (Definition × Bool) :=
  xs.foldlM d.extend? y

@[simp] theorem assemble?_nil (d : Dictionary) (y : Definition × Bool) :
    d.assemble? [] y = some y := rfl

theorem assemble?_append (d : Dictionary) (xs ys : List Lexeme) (y : Definition × Bool) :
    d.assemble? (xs ++ ys) y = (d.assemble? xs y).bind (d.assemble? ys) :=
  List.foldlM_append

theorem assemble?_cons (d : Dictionary) (x : Lexeme) (xs : List Lexeme) (y : Definition × Bool) :
    d.assemble? (x :: xs) y = (d.extend? y x).bind (d.assemble? xs) :=
  List.foldlM_cons

end Dictionary

/-- The word that a lexeme runs inside of a definition, if it stands for one that is immediate and
not built in.  Such a word builds nothing by itself. -/
def Lexeme.interlude? (d : Dictionary) : Lexeme → Option Nat
  | .word name => (d.find? name).bind fun (i, e) =>
    if e.immediate && !e.isBuiltin then some i else none
  | _ => none

/-- The lexemes without those that run a word. -/
def Dictionary.proper (d : Dictionary) (xs : List Lexeme) : List Lexeme :=
  xs.filter fun x => (x.interlude? d).isNone

/-- A lexeme adds the same words where names stand for the same. -/
theorem Lexeme.effect?_of_find? {d d' : Dictionary}
    (h : ∀ name, d'.unplaced.find? name = d.unplaced.find? name) (x : Lexeme) :
    x.effect? d' = x.effect? d := by
  have drop (d : Dictionary) (x : Lexeme) : x.effect? d.unplaced = x.effect? d := by
    cases x with
    | number n => rfl
    | string form text =>
      cases form with
      | display | push => rfl
      | print =>
        simp only [effect?, Dictionary.find?_unplaced]
        cases d.find? "TYPE" <;> rfl
    | word name =>
      simp only [effect?, Dictionary.find?_unplaced]
      cases d.find? name with
      | none => rfl
      | some found =>
        obtain ⟨i, e⟩ := found
        simp only [Option.map_some, Option.bind_some, Entry.isBuiltin_unplaced]
        rw [show e.unplaced.immediate = e.immediate from rfl]
        cases hb : e.body with
        | builtin w => rw [Entry.body_unplaced_eq_builtin.2 hb]
        | compiled code =>
          have hn (w : Builtin) : e.unplaced.body ≠ .builtin w := fun hw => by
            rw [Entry.body_unplaced_eq_builtin, hb] at hw
            cases hw
          split
          · split
            · rename_i hw
              exact (hn _ hw).elim
            · rename_i hw
              exact (hn _ hw).elim
            · rfl
          · rfl
  rw [← drop d', ← drop d]
  cases x with
  | number n => rfl
  | string form text => cases form <;> simp [effect?, h]
  | word name => simp [effect?, h]

namespace Dictionary

variable {d d' : Dictionary}

theorem extend?_of_find? (h : ∀ name, d'.unplaced.find? name = d.unplaced.find? name) :
    d'.extend? = d.extend? := by
  funext y x
  rw [extend?, extend?, Lexeme.effect?_of_find? h]

theorem interlude?_of_find? (h : ∀ name, d'.unplaced.find? name = d.unplaced.find? name)
    (x : Lexeme) : x.interlude? d' = x.interlude? d := by
  have drop (d : Dictionary) (x : Lexeme) : x.interlude? d.unplaced = x.interlude? d := by
    cases x with
    | number n | string form text => rfl
    | word name =>
      simp only [Lexeme.interlude?, Dictionary.find?_unplaced]
      cases d.find? name with
      | none => rfl
      | some found =>
        obtain ⟨i, e⟩ := found
        simp only [Option.map_some, Option.bind_some, Entry.isBuiltin_unplaced]
        rfl
  rw [← drop d', ← drop d]
  cases x with
  | number n | string form text => rfl
  | word name => simp [Lexeme.interlude?, h]

theorem proper_of_find? (h : ∀ name, d'.unplaced.find? name = d.unplaced.find? name) :
    d'.proper = d.proper := by
  funext xs
  simp only [proper, interlude?_of_find? h]

/-- The lexeme is the name of an immediate word with code. -/
theorem interlude?_eq_some_iff {x : Lexeme} {i : Nat} : x.interlude? d = some i ↔
    ∃ name e code, x = .word name ∧ d.find? name = some (i, e) ∧ e.immediate = true ∧
      e.body = .compiled code := by
  constructor
  · intro h
    cases x with
    | number n | string form text => cases h
    | word name =>
      obtain ⟨⟨j, e⟩, hf, h⟩ := Option.bind_eq_some_iff.1 h
      dsimp only at h
      split at h
      · rename_i hi
        obtain rfl := Option.some.inj h
        rw [Bool.and_eq_true, Bool.not_eq_true', Entry.isBuiltin] at hi
        cases hb : e.body with
        | builtin w => simp [hb] at hi
        | compiled code => exact ⟨name, e, code, rfl, hf, hi.1, hb⟩
      · cases h
  · rintro ⟨name, e, code, rfl, hf, hi, hb⟩
    simp [Lexeme.interlude?, hf, hi, Entry.isBuiltin, hb]

/-- A lexeme that runs a word has no effect on the body. -/
theorem effect?_of_interlude? {x : Lexeme} {i : Nat} (h : x.interlude? d = some i) :
    x.effect? d = none := by
  obtain ⟨name, e, code, rfl, hf, hi, hb⟩ := interlude?_eq_some_iff.1 h
  simp [Lexeme.effect?, hf, hi, hb]

theorem interlude?_of_effect? {x : Lexeme} {effect : List BodyWord × Bool}
    (h : x.effect? d = some effect) : x.interlude? d = none := by
  cases hi : x.interlude? d with
  | none => rfl
  | some i =>
    rw [effect?_of_interlude? hi] at h
    cases h

@[simp] theorem proper_append (d : Dictionary) (xs ys : List Lexeme) :
    d.proper (xs ++ ys) = d.proper xs ++ d.proper ys :=
  List.filter_append _ _

@[simp] theorem proper_nil (d : Dictionary) : d.proper [] = [] := rfl

theorem proper_cons_of_none {x : Lexeme} (h : x.interlude? d = none) (xs : List Lexeme) :
    d.proper (x :: xs) = x :: d.proper xs := by
  simp [proper, h]

theorem proper_cons_of_some {x : Lexeme} {i : Nat} (h : x.interlude? d = some i)
    (xs : List Lexeme) : d.proper (x :: xs) = d.proper xs := by
  simp [proper, h]

/-- Lexemes that assemble to a definition run no word. -/
theorem interlude?_of_assemble? {xs : List Lexeme} {y z : Definition × Bool}
    (h : d.assemble? xs y = some z) : ∀ x ∈ xs, x.interlude? d = none := by
  induction xs generalizing y with
  | nil => nofun
  | cons x xs ih =>
    rw [assemble?_cons] at h
    obtain ⟨y', hx, hxs⟩ := Option.bind_eq_some_iff.1 h
    obtain ⟨effect, he, -⟩ := Option.bind_eq_some_iff.1 hx
    exact List.forall_mem_cons.2 ⟨interlude?_of_effect? he, ih hxs⟩

theorem proper_of_assemble? {xs : List Lexeme} {y z : Definition × Bool}
    (h : d.assemble? xs y = some z) : d.proper xs = xs :=
  List.filter_eq_self.2 fun x hx => by rw [interlude?_of_assemble? h x hx]; rfl

/-- The same words make the same of lexemes. -/
theorem assemble?_of_unplaced (h : d'.unplaced = d.unplaced) : d'.assemble? = d.assemble? := by
  have hextend : d'.extend? = d.extend? := extend?_of_find? fun name => by rw [h]
  funext xs y
  rw [assemble?, assemble?, hextend]

/-- A lexeme extends the skeleton as it does the definition. -/
theorem extend?_skeleton (d : Dictionary) (y : Definition) (m : Bool) (x : Lexeme)
    (l : Option Location) : d.extend? (y.skeleton, m) x =
      (x.effect? d).bind fun (ws, marks) =>
        match Definition.build (Definition.placed l ws) y with
        | .ok _ y' => some (y'.skeleton, m || marks)
        | .error _ _ => none := by
  unfold extend?
  cases x.effect? d with
  | none => rfl
  | some found =>
    obtain ⟨ws, marks⟩ := found
    simp only [Option.bind_some, Definition.skeleton_build l]
    cases Definition.build (Definition.placed l ws) y <;> rfl

end Dictionary

namespace Definition

/-- The definition of the same entry, with the same tokens. -/
structure Same (d d' : Definition) : Prop where
  word : d'.word = d.word
  name : d'.name = d.name
  recorded : d'.recorded = d.recorded

theorem same_compileStep (l : Option Location) (d : Definition) (w : ControlWord) :
    After d.Same (w.compileStep l d) := by
  cases w with
  | openIf | openBegin | openDo | openQueryDo | exit | recurse => exact ⟨rfl, rfl, rfl⟩
  | openElse | closeThen | closeUntil | closeAgain | openWhile | closeRepeat | closeLoop
  | closePlusLoop =>
    simp only [ControlWord.compileStep, compileElse_eq, compileThen_eq, compileUntil_eq,
      compileAgain_eq, compileWhile_eq, compileRepeat_eq, compileLoop_eq]
    split <;> exact ⟨rfl, rfl, rfl⟩
  | index | outerIndex | leave | unloop =>
    simp only [ControlWord.compileStep, compileLoopIndex_eq, compileLeave_eq, compileUnloop_eq]
    split <;> exact ⟨rfl, rfl, rfl⟩

/-- Building a body keeps the entry that it is for, and the tokens that it was read from. -/
theorem same_build (ws : List (Option Location × BodyWord)) (d : Definition) :
    After d.Same (build ws d) := by
  induction ws generalizing d with
  | nil => exact ⟨rfl, rfl, rfl⟩
  | cons w ws ih =>
    have hw : After d.Same (w.2.compileStep w.1 d) := by
      cases w.2 with
      | literal v | call builtin index => exact ⟨rfl, rfl, rfl⟩
      | control c => exact same_compileStep w.1 d c
    refine After.andThen hw fun d' hd => ?_
    have h := ih d'
    cases hr : build ws d' with
    | ok a d'' =>
      rw [hr] at h
      exact ⟨h.word.trans hd.word, h.name.trans hd.name, h.recorded.trans hd.recorded⟩
    | error c d'' =>
      rw [hr] at h
      exact ⟨h.word.trans hd.word, h.name.trans hd.name, h.recorded.trans hd.recorded⟩

theorem same_of_build {ws : List (Option Location × BodyWord)} {d d' : Definition} {a : Unit}
    (h : build ws d = .ok a d') : d.Same d' := by
  have hsame := same_build ws d
  rwa [h] at hsame

end Definition

end StackLang
