import StackLang.Proofs.Definition.Acceptance
import StackLang.Proofs.Definition.ControlFlow

/-!
# The loops around an instruction

Building knows no levels, but it could: the number of counted loops that are open is the level of
the next instruction.  What keeps the levels of a whole body right is what the open structures rely
on.  A branch that waits for its target is to land outside of the structure, a place to go back to
lies inside of it, and a `LEAVE` lands outside of its loop, however many structures lie in
between.

* `BodyWord.layout`: the instructions of a body, with their places and the loops around them.
* `Construct.Leveled`: what an open structure relies on.
* `Definition.Leveled`: the levels are right so far.
* `leveled_compileStep`: every word but `UNLOOP` keeps them right.
* `leveled_of_accepted`: the levels of a body that is accepted are those of its layout.
* `BodyWord.layout_loop`: a loop is laid out as its body is inside of one more loop.
-/

namespace StackLang

/-! ## The layout of a body -/

/-- Does the word compile to an instruction?  The others only mark a place. -/
def BodyWord.emits : BodyWord → Bool
  | control .closeThen | control .openBegin => false
  | _ => true

/-- The number of counted loops around what follows the word. -/
def BodyWord.depthBehind (depth : Nat) : BodyWord → Nat
  | control w => if w.opensLoop then depth + 1 else if w.closesLoop then depth - 1 else depth
  | _ => depth

/-- The instructions of a body that stands inside of `depth` counted loops: the place of each one,
and the number of counted loops around it.  The word that opens a loop stands outside of it, and the
one that closes it stands inside. -/
def BodyWord.layout : (depth : Nat) → List (Option Location × BodyWord) →
    List (Option Location × Nat)
  | _, [] => []
  | depth, (l, w) :: ws =>
    (if w.emits then [(l, depth)] else []) ++ layout (w.depthBehind depth) ws

theorem BodyWord.depthBehind_of_not_emits {depth : Nat} {w : BodyWord} (h : w.emits = false) :
    w.depthBehind depth = depth := by
  cases w with
  | literal v | call builtin index => rfl
  | control w => cases w <;> first | rfl | cases h

/-- The first instruction has the loops around it that the body has. -/
theorem BodyWord.head_layout (depth : Nat) (ws : List (Option Location × BodyWord)) :
    ∀ x ∈ (layout depth ws).head?, x.2 = depth := by
  induction ws generalizing depth with
  | nil => exact nofun
  | cons x ws ih =>
    obtain ⟨l, w⟩ := x
    rw [layout]
    split
    · rintro x ⟨⟩
      rfl
    · rename_i hw
      rw [depthBehind_of_not_emits (Bool.not_eq_true _ ▸ hw)]
      exact ih depth

/-- The place of each instruction. -/
def Code.places (code : Code) : List (Option Location) :=
  code.toList.map (·.location)

section

variable (code : Code) (b : Nat)

theorem Code.places_modify (index : Nat) (f : Op → Op) :
    places (Array.modify code index fun x => { x with op := f x.op }) = code.places := by
  refine List.ext_getElem? fun i => ?_
  rw [places, places, List.getElem?_map, List.getElem?_map, Array.getElem?_toList,
    Array.getElem?_toList, Array.getElem?_modify]
  split
  · rw [Option.map_map]
    rfl
  · rfl

theorem Code.places_retarget (index : Nat) : (code.retarget b index).places = code.places :=
  code.places_modify index _

theorem Code.places_settle (direction : LoopDirection) (marker : Nat) :
    (code.settle direction b marker).places = code.places :=
  code.places_modify marker _

theorem Code.places_retargetAll (indices : List Nat) :
    (code.retargetAll b indices).places = code.places := by
  induction indices generalizing code with
  | nil => rfl
  | cons index indices ih => exact (ih _).trans (code.places_retarget b index)

end

/-! ## Open structures -/

/-- A counted loop stands inside of `n` others: the word that opens it has `n` loops open and leaves
one more open behind it, and each `LEAVE` is to land outside. -/
structure Code.LoopLeveled (code : Code) (levels : List Nat) (n marker : Nat) (leaves : List Nat) :
    Prop where
  opener : code.Awaits levels n marker
  outside : levels[marker]? = some n
  inside : levels[marker + 1]? = some (n + 1)
  leave : ∀ i ∈ leaves, code.Awaits levels n i

/-- The branches that wait for the structure are to land at its own level, and a loop may go back to
its first instruction. -/
def Construct.Leveled (code : Code) (levels : List Nat) (n : Nat) : Construct → Prop
  | .ifArm branch | .elseArm branch | .whileExit branch => code.Awaits levels n branch
  | .loopHead start => levels[start]? = some n
  | .counted marker leaves => code.LoopLeveled levels n marker leaves

/-- Each open structure can rely on what it needs, with as many loops around it as are open. -/
def Construct.LeveledAll (code : Code) (levels : List Nat) : List Construct → Prop
  | [] => True
  | c :: rest => c.Leveled code levels (rest.countP isCounted) ∧ LeveledAll code levels rest

section

variable {code code' : Code} {levels levels' : List Nat} {n : Nat}

theorem Code.LoopLeveled.keep {marker : Nat} {leaves : List Nat}
    (h : code.LoopLeveled levels n marker leaves) (hk : code.Keeps code' levels levels') :
    LoopLeveled code' levels' n marker leaves where
  opener := hk.awaits h.opener
  outside := hk.level h.outside
  inside := hk.level h.inside
  leave := fun i hi => hk.awaits (h.leave i hi)

theorem Construct.Leveled.keep {c : Construct} (h : c.Leveled code levels n)
    (hk : code.Keeps code' levels levels') : c.Leveled code' levels' n := by
  cases c with
  | ifArm branch | elseArm branch | whileExit branch => exact hk.awaits h
  | loopHead start => exact hk.level h
  | counted marker leaves => exact Code.LoopLeveled.keep h hk

theorem Construct.LeveledAll.keep {control : List Construct}
    (h : LeveledAll code levels control) (hk : code.Keeps code' levels levels') :
    LeveledAll code' levels' control := by
  induction control with
  | nil => trivial
  | cons c rest ih => exact ⟨h.1.keep hk, ih h.2⟩

/-- A counted loop may be settled, and its `LEAVE`s patched, to end at an instruction of its own
level. -/
theorem Code.LoopLeveled.close {marker b : Nat} {leaves : List Nat} {direction : LoopDirection}
    (h : code.LoopLeveled levels n marker leaves) (hcode : code.Leveled levels)
    (hb : levels[b]? = some n) :
    let code' := (code.settle direction b marker).retargetAll b leaves
    code'.Leveled levels ∧ code.Keeps code' levels levels := by
  have hsettle := keeps_settle direction b h.outside h.opener
  obtain ⟨hdone, hpatch⟩ := retargetAll_leveled (hcode.settle h.outside h.inside hb)
    (fun i hi => hsettle.awaits (h.leave i hi)) hb
  exact ⟨hdone, hsettle.trans hpatch⟩

/-- A `LEAVE` is to land outside of the innermost counted loop. -/
theorem Construct.LeveledAll.addLeave {leave : Nat} {control control' : List Construct}
    (ha : Definition.addLeave? leave control = some control') (h : LeveledAll code levels control)
    (hleave : code.Awaits levels (control.countP isCounted - 1) leave) :
    LeveledAll code levels control' ∧ control'.countP isCounted = control.countP isCounted := by
  fun_induction Definition.addLeave? leave control generalizing control' with
  | case1 => cases ha
  | case2 marker leaves rest =>
    cases ha
    obtain ⟨hloop, hrest⟩ := h
    refine ⟨⟨{ hloop with leave := fun i hi => ?_ }, hrest⟩, rfl⟩
    rcases List.mem_cons.1 hi with rfl | hi
    · rwa [List.countP_cons_of_pos rfl, Nat.add_sub_cancel] at hleave
    · exact hloop.leave i hi
  | case3 c rest hne ih =>
    obtain ⟨rest', hr, rfl⟩ := Option.map_eq_some_iff.1 ha
    have hc : ¬ c.isCounted = true := by
      cases c with
      | counted marker leaves => exact (hne marker leaves rfl).elim
      | _ => exact Bool.false_ne_true
    rw [List.countP_cons_of_neg hc] at hleave
    obtain ⟨hall, hcount⟩ := ih hr h.2 hleave
    rw [List.countP_cons_of_neg hc, List.countP_cons_of_neg hc]
    exact ⟨⟨hcount.symm ▸ h.1, hall⟩, hcount⟩

end

/-! ## Definitions -/

namespace Definition

/-- The levels of the instructions so far, and that of the next one. -/
def levels (init : List (Option Location × Nat)) (d : Definition) : List Nat :=
  init.map Prod.snd ++ [d.loopDepth]

/-- The instructions so far have the places and the levels in `init`, and the levels are right. -/
structure Leveled (init : List (Option Location × Nat)) (d : Definition) : Prop where
  placed : Code.places d.code = init.map Prod.fst
  code : Code.Leveled d.code (d.levels init)
  control : Construct.LeveledAll d.code (d.levels init) d.control

/-- The instruction that was next gets the level that it was to have. -/
theorem levels_append (init : List (Option Location × Nat)) (l : Option Location)
    (d d' : Definition) :
    d'.levels (init ++ [(l, d.loopDepth)]) = d.levels init ++ [d'.loopDepth] := by
  simp [levels]

theorem levels_congr (init : List (Option Location × Nat)) {d d' : Definition}
    (h : d.loopDepth = d'.loopDepth) : d.levels init = d'.levels init :=
  congrArg (fun k => init.map Prod.snd ++ [k]) h

theorem leveled_opened (word : Nat) (name : String) (location : Location) :
    (opened word name location).Leveled [] where
  placed := rfl
  code := ⟨fun hx => by simp [opened] at hx, fun hx => by simp [opened] at hx⟩
  control := trivial

namespace Leveled

variable {init : List (Option Location × Nat)} {d : Definition} (h : d.Leveled init)
  {l : Option Location}
include h

theorem length_init : init.length = d.code.size := by
  have := congrArg List.length h.placed
  simpa [Code.places] using this.symm

theorem length_levels : (d.levels init).length = d.code.size + 1 := by
  rw [levels, List.length_append, List.length_map, h.length_init]
  rfl

theorem level_here : (d.levels init)[d.code.size]? = some d.loopDepth := by
  rw [levels, List.getElem?_append_right (by simp [h.length_init])]
  simp [h.length_init]

theorem level_next (k : Nat) : (d.levels init ++ [k])[d.code.size + 1]? = some k := by
  rw [List.getElem?_append_right (Nat.le_of_eq h.length_levels), h.length_levels]
  simp

/-- The instruction that is appended is at the level of what is open. -/
theorem awaits_here {op : Op} (k : Nat) {n : Nat} (hop : op.landing d.loopDepth = n) :
    Code.Awaits (d.code.push ⟨l, op⟩) (d.levels init ++ [k]) n d.code.size :=
  ⟨⟨l, op⟩, _, by simp, Code.getElem?_append_level _ h.level_here, hop⟩

/-- Appending an instruction, and opening or closing structures. -/
theorem push (op : Op) (control : List Construct)
    (goes : ∀ j m, op.Goes d.code.size d.loopDepth j m →
      (d.levels init ++ [control.countP Construct.isCounted])[j]? = some m)
    (needs : op.loopsNeeded ≤ d.loopDepth)
    (hc : Construct.LeveledAll (d.code.push ⟨l, op⟩)
      (d.levels init ++ [control.countP Construct.isCounted]) control) :
    Leveled (init ++ [(l, d.loopDepth)]) { d with code := d.code.push ⟨l, op⟩, control } := by
  refine ⟨?_, ?_, ?_⟩
  · simpa [Code.places] using h.placed
  · rw [levels_append]
    exact h.code.push l op h.level_here _ goes needs h.length_levels
  · rw [levels_append]
    exact hc

/-- Appending an instruction that opens and closes nothing. -/
theorem emit {op : Op}
    (goes : ∀ j m, op.Goes d.code.size d.loopDepth j m →
      j = d.code.size + 1 ∧ m = d.loopDepth ∨ (d.levels init)[j]? = some m)
    (needs : op.loopsNeeded ≤ d.loopDepth) :
    Leveled (init ++ [(l, d.loopDepth)]) { d with code := d.code.push ⟨l, op⟩ } := by
  refine h.push op d.control (fun j m hg => ?_) needs
    (h.control.keep (Code.keeps_push ..))
  rcases goes j m hg with ⟨rfl, rfl⟩ | hl
  · exact h.level_next _
  · exact Code.getElem?_append_level _ hl

/-- Appending a branch that waits for the structure that it opens. -/
theorem push_open (op : Op) (c : Construct) (hcount : c.isCounted = false)
    (goes : ∀ j m, op.Goes d.code.size d.loopDepth j m → j = d.code.size + 1 ∧ m = d.loopDepth)
    (needs : op.loopsNeeded = 0)
    (hc : c.Leveled (d.code.push ⟨l, op⟩) (d.levels init ++ [d.loopDepth]) d.loopDepth) :
    Leveled (init ++ [(l, d.loopDepth)])
      { d with code := d.code.push ⟨l, op⟩, control := c :: d.control } := by
  have hdepth : (c :: d.control).countP Construct.isCounted = d.loopDepth :=
    List.countP_cons_of_neg (by simp [hcount])
  refine h.push op (c :: d.control) (fun j m hg => ?_) (needs ▸ Nat.zero_le _) ?_
  · obtain ⟨rfl, rfl⟩ := goes j m hg
    rw [hdepth]
    exact h.level_next _
  · rw [hdepth]
    exact ⟨hc, h.control.keep (Code.keeps_push ..)⟩

/-- Closing a structure that is no counted loop.  Its branches are to land at the level of what is
still open. -/
theorem pop {c : Construct} {rest : List Construct} (hc : d.control = c :: rest)
    (hcount : c.isCounted = false) :
    let d' := { d with control := rest }
    d.loopDepth = d'.loopDepth ∧ d'.Leveled init ∧
      c.Leveled d.code (d'.levels init) d'.loopDepth := by
  intro d'
  have hdepth : d.loopDepth = d'.loopDepth := by
    rw [loopDepth, hc]
    exact List.countP_cons_of_neg (by simp [hcount])
  have hlevels : d.levels init = d'.levels init := levels_congr init hdepth
  have hall := h.control
  rw [hlevels, hc] at hall
  exact ⟨hdepth, ⟨h.placed, hlevels ▸ h.code, hall.2⟩, hall.1⟩

/-- Patching branches. -/
theorem patch {code : Code} (hplaced : code.places = Code.places d.code)
    (hcode : Code.Leveled code (d.levels init))
    (hk : Code.Keeps d.code code (d.levels init) (d.levels init)) :
    Leveled init { d with code } :=
  ⟨hplaced.trans h.placed, hcode, h.control.keep hk⟩

theorem retarget {b index n : Nat} (ha : Code.Awaits d.code (d.levels init) n index)
    (hb : (d.levels init)[b]? = some n) :
    Leveled init { d with code := Code.retarget d.code b index } :=
  h.patch (Code.places_retarget ..) (h.code.retarget ha hb) (Code.keeps_retarget ..)

/-- Patching a branch of the code so far, to land behind the instruction that has been appended. -/
theorem retarget_next {d' : Definition} {index : Nat}
    (h' : d'.Leveled (init ++ [(l, d.loopDepth)])) {x : Instruction}
    (hcode : d'.code = d.code.push x) (ha : Code.Awaits d.code (d.levels init) d'.loopDepth index) :
    Leveled (init ++ [(l, d.loopDepth)])
      { d' with code := Code.retarget d'.code (d.code.size + 1) index } := by
  refine h'.retarget (n := d'.loopDepth) ?_ ?_
  · rw [levels_append, hcode]
    exact (Code.keeps_push ..).awaits ha
  · rw [levels_append]
    exact h.level_next _

end Leveled

/-! ## The words of a body -/

section

variable {init : List (Option Location × Nat)} {d d' : Definition} (h : d.Leveled init)
  (l : Option Location)
include h

theorem leveled_compileIf (hok : compileIf l d = .ok () d') :
    Leveled (init ++ [(l, d.loopDepth)]) d' := by
  rw [compileIf_eq] at hok
  cases hok
  refine h.push_open _ _ rfl (fun j m hg => ?_) rfl (h.awaits_here _ rfl)
  obtain ⟨hj | hj, hm⟩ := hg
  · exact ⟨hj, hm⟩
  · cases hj

theorem leveled_compileElse (hok : compileElse l d = .ok () d') :
    Leveled (init ++ [(l, d.loopDepth)]) d' := by
  rw [compileElse_eq] at hok
  split at hok
  · rename_i skipped rest hc
    cases hok
    obtain ⟨hdepth, hd, ha⟩ := h.pop hc rfl
    rw [hdepth]
    have hpush := hd.push_open (l := l) (.branch none) (.elseArm d.code.size) rfl
      (fun j m hg => by cases hg.1) rfl (hd.awaits_here _ rfl)
    exact hd.retarget_next hpush rfl ha
  · cases hok
  · cases hok

theorem leveled_compileThen (hok : compileThen d = .ok () d') : Leveled init d' := by
  rw [compileThen_eq] at hok
  split at hok
  · rename_i branch rest hc
    cases hok
    obtain ⟨-, hd, ha⟩ := h.pop hc rfl
    exact hd.retarget ha hd.level_here
  · rename_i branch rest hc
    cases hok
    obtain ⟨-, hd, ha⟩ := h.pop hc rfl
    exact hd.retarget ha hd.level_here
  · cases hok
  · cases hok

theorem leveled_compileBegin (hok : compileBegin d = .ok () d') : Leveled init d' := by
  rw [compileBegin_eq] at hok
  cases hok
  exact ⟨h.placed, h.code, h.level_here, h.control⟩

/-- A conditional branch back to the start of the loop, which is closed. -/
theorem leveled_compileUntil (hok : compileUntil l d = .ok () d') :
    Leveled (init ++ [(l, d.loopDepth)]) d' := by
  rw [compileUntil_eq] at hok
  split at hok
  · rename_i start rest hc
    cases hok
    obtain ⟨hdepth, hd, hstart⟩ := h.pop hc rfl
    rw [hdepth]
    refine hd.emit (fun j m hg => ?_) (Nat.zero_le _)
    obtain ⟨hj | hj, rfl⟩ := hg
    · exact .inl ⟨hj, rfl⟩
    · cases hj
      exact .inr hstart
  · cases hok
  · cases hok

theorem leveled_compileAgain (hok : compileAgain l d = .ok () d') :
    Leveled (init ++ [(l, d.loopDepth)]) d' := by
  rw [compileAgain_eq] at hok
  split at hok
  · rename_i start rest hc
    cases hok
    obtain ⟨hdepth, hd, hstart⟩ := h.pop hc rfl
    rw [hdepth]
    refine hd.emit (fun j m hg => .inr ?_) (Nat.zero_le _)
    obtain ⟨hj, rfl⟩ := hg
    cases hj
    exact hstart
  · cases hok
  · cases hok

theorem leveled_compileWhile (hok : compileWhile l d = .ok () d') :
    Leveled (init ++ [(l, d.loopDepth)]) d' := by
  rw [compileWhile_eq] at hok
  split at hok
  · rename_i start rest hc
    cases hok
    rw [← hc]
    refine h.push_open _ _ rfl (fun j m hg => ?_) rfl (h.awaits_here _ rfl)
    obtain ⟨hj | hj, hm⟩ := hg
    · exact ⟨hj, hm⟩
    · cases hj
  · cases hok
  · cases hok

theorem leveled_compileRepeat (hok : compileRepeat l d = .ok () d') :
    Leveled (init ++ [(l, d.loopDepth)]) d' := by
  rw [compileRepeat_eq] at hok
  split at hok
  · rename_i branch start rest hc
    cases hok
    obtain ⟨hdepth, hd, ha⟩ := h.pop hc rfl
    obtain ⟨hdepth', hd', hstart⟩ := hd.pop rfl rfl
    have ha : Code.Awaits d.code _ _ branch := ha
    rw [levels_congr init hdepth', hdepth'] at ha
    rw [hdepth, hdepth']
    refine hd'.retarget_next (hd'.emit (fun j m hg => .inr ?_) (Nat.zero_le _)) rfl ha
    obtain ⟨hj, rfl⟩ := hg
    cases hj
    exact hstart
  all_goals cases hok

theorem leveled_compileDo (query : Bool) (hok : compileDo l query d = .ok () d') :
    Leveled (init ++ [(l, d.loopDepth)]) d' := by
  rw [compileDo_eq] at hok
  cases hok
  have hcount : (Construct.counted d.code.size [] :: d.control).countP Construct.isCounted =
      d.loopDepth + 1 := List.countP_cons_of_pos rfl
  refine h.push _ _ (fun j m hg => ?_) ?_ ?_
  · rw [hcount]
    obtain ⟨rfl, rfl⟩ : j = d.code.size + 1 ∧ m = d.loopDepth + 1 := by
      cases query with
      | false => exact hg
      | true => exact hg.resolve_right fun h => by cases h.1
    exact h.level_next _
  · cases query <;> exact Nat.zero_le _
  · rw [hcount]
    refine ⟨⟨h.awaits_here _ ?_, Code.getElem?_append_level _ h.level_here, h.level_next _,
      fun i hi => by cases hi⟩, h.control.keep (Code.keeps_push ..)⟩
    cases query <;> rfl

theorem leveled_compileLoop (plus : Bool) (hok : compileLoop l plus d = .ok () d') :
    Leveled (init ++ [(l, d.loopDepth)]) d' := by
  rw [compileLoop_eq] at hok
  split at hok
  · rename_i marker leaves rest hc
    cases hok
    have hdepth : d.loopDepth = rest.countP Construct.isCounted + 1 := by
      rw [loopDepth, hc]
      exact List.countP_cons_of_pos rfl
    have hall := h.control
    rw [hc] at hall
    obtain ⟨hloop, hrest⟩ := hall
    have hloop : Code.LoopLeveled d.code _ _ marker leaves := hloop
    have hkeep := Code.keeps_push d.code (d.levels init)
      ⟨l, .loop (if plus then .nextBy else .next) (some (marker + 1))⟩
      [rest.countP Construct.isCounted]
    have hnext := h.level_next (rest.countP Construct.isCounted)
    have hpush := h.push (l := l) _ rest
      (fun j m hg => by
        rcases hg.of_closing plus with ⟨rfl, rfl⟩ | ⟨rfl, hm⟩
        · rw [hdepth]
          exact hkeep.level hloop.inside
        · rw [show m = rest.countP Construct.isCounted by omega]
          exact hnext)
      (by cases plus <;> exact hdepth ▸ Nat.succ_pos _) (hrest.keep hkeep)
    have hcode := hpush.code
    rw [levels_append] at hcode
    obtain ⟨hdone, hclose⟩ := (hloop.keep hkeep).close hcode hnext
    refine hpush.patch ?_ ?_ ?_
    · exact (Code.places_retargetAll ..).trans (Code.places_settle ..)
    · rw [levels_append]
      exact hdone
    · rw [levels_append]
      exact hclose
  · cases hok
  · cases hok

theorem leveled_compileLeave (hok : compileLeave l d = .ok () d') :
    Leveled (init ++ [(l, d.loopDepth)]) d' := by
  rw [compileLeave_eq] at hok
  split at hok
  · rename_i control ha
    cases hok
    have hkinds := kinds_addLeave? d.code.size d.control
    rw [ha, count_kind] at hkinds
    obtain ⟨hpos, -⟩ := Option.ite_none_right_eq_some.1 hkinds.symm
    -- The `LEAVE` is appended before its loop is told to wait for it.
    have hkeep := h.control.keep (Code.keeps_push _ _ ⟨l, .loop .leave none⟩ [d.loopDepth])
    obtain ⟨hall, hcount⟩ := hkeep.addLeave ha (h.awaits_here _ rfl)
    refine h.push _ _ (fun j m hg => ?_) hpos ?_
    · cases hg.1
    · rw [hcount]
      exact hall
  · cases hok

theorem leveled_compileLoopIndex {word : String} {depth : Nat}
    (hok : compileLoopIndex l word depth d = .ok () d') :
    Leveled (init ++ [(l, d.loopDepth)]) d' := by
  rw [compileLoopIndex_eq] at hok
  split at hok
  · cases hok
  · rename_i hdepth
    cases hok
    exact h.emit (fun j m hg => .inl hg) (Nat.lt_of_not_le hdepth)

/-- Every word but `UNLOOP` that is accepted keeps the levels right. -/
theorem leveled_compileStep {w : BodyWord} (hw : w ≠ .control .unloop)
    (hok : w.compileStep l d = .ok () d') :
    d'.Leveled (init ++ if w.emits then [(l, d.loopDepth)] else []) := by
  cases w with
  | literal v =>
    cases hok
    exact h.emit (fun j m hg => .inl hg) (Nat.zero_le _)
  | call builtin index =>
    cases hok
    cases builtin <;> exact h.emit (fun j m hg => .inl hg) (Nat.zero_le _)
  | control w =>
    cases w with
    | openIf => exact leveled_compileIf h l hok
    | openElse => exact leveled_compileElse h l hok
    | closeThen => exact (List.append_nil init).symm ▸ leveled_compileThen h hok
    | openBegin => exact (List.append_nil init).symm ▸ leveled_compileBegin h hok
    | closeUntil => exact leveled_compileUntil h l hok
    | closeAgain => exact leveled_compileAgain h l hok
    | openWhile => exact leveled_compileWhile h l hok
    | closeRepeat => exact leveled_compileRepeat h l hok
    | openDo => exact leveled_compileDo h l false hok
    | openQueryDo => exact leveled_compileDo h l true hok
    | closeLoop => exact leveled_compileLoop h l false hok
    | closePlusLoop => exact leveled_compileLoop h l true hok
    | index | outerIndex => exact leveled_compileLoopIndex h l hok
    | leave => exact leveled_compileLeave h l hok
    | unloop => exact (hw rfl).elim
    | exit =>
      cases hok
      exact h.emit (fun j m hg => hg.elim) (Nat.zero_le _)
    | recurse =>
      cases hok
      exact h.emit (fun j m hg => .inl hg) (Nat.zero_le _)

end

/-! ## A whole body -/

/-- The words open and close as many counted loops as the open structures show. -/
theorem count_next? {σ τ : List Construct.Kind} {w : BodyWord} (h : w.next? σ = some τ) :
    τ.count .counted = w.depthBehind (σ.count .counted) := by
  cases w with
  | literal v | call builtin index =>
    cases h
    rfl
  | control w =>
    have hw : w.next? σ = some τ := h
    unfold ControlWord.next? at hw
    split at hw
    all_goals first
      | cases hw <;> simp [BodyWord.depthBehind, ControlWord.opensLoop, ControlWord.closesLoop]
      | obtain ⟨-, ⟨⟩⟩ := Option.ite_none_right_eq_some.1 hw; rfl

variable {ws : List (Option Location × BodyWord)} {init : List (Option Location × Nat)}
  {d d' : Definition} {code : Code}

theorem loopDepth_compileStep {l : Option Location} {w : BodyWord}
    (hok : w.compileStep l d = .ok () d') : d'.loopDepth = w.depthBehind d.loopDepth := by
  have hk := kinds_compileStep l d w
  rw [hok] at hk
  rw [← count_kinds, ← count_kinds]
  exact count_next? hk

/-- The layout goes on with the words of the body. -/
theorem leveled_build (hws : ∀ x ∈ ws, x.2 ≠ .control .unloop) (h : d.Leveled init)
    (hok : build ws d = .ok () d') : d'.Leveled (init ++ BodyWord.layout d.loopDepth ws) := by
  induction ws generalizing init d with
  | nil =>
    cases hok
    rw [BodyWord.layout, List.append_nil]
    exact h
  | cons x ws ih =>
    obtain ⟨l, w⟩ := x
    rw [build, bind_apply] at hok
    cases hw : w.compileStep l d with
    | error c d₁ =>
      rw [hw] at hok
      cases hok
    | ok _ d₁ =>
      rw [hw] at hok
      have h₁ := leveled_compileStep h l (hws (l, w) List.mem_cons_self) hw
      have h' := ih (fun x hx => hws x (List.mem_cons_of_mem _ hx)) h₁ hok
      rwa [loopDepth_compileStep hw, List.append_assoc] at h'

/-- The exit comes last, with no loop around it. -/
theorem leveled_finish (h : d.Leveled init) (hok : finish d = .ok (.ok code) d') :
    code.places = (init ++ [(none, 0)]).map Prod.fst ∧
      code.Leveled ((init ++ [(none, 0)]).map Prod.snd) := by
  rw [finish_eq] at hok
  split at hok
  · cases hok
  · rename_i hc
    have hcode : d.code.push ⟨none, .exit⟩ = code := by
      split at hok <;> cases hok
      rfl
    have hlevels : (init ++ [(none, 0)]).map Prod.snd = d.levels init := by
      simp [levels, loopDepth, hc]
    rw [hlevels, ← hcode]
    constructor
    · simpa [Code.places] using h.placed
    · simpa using h.code.push none .exit h.level_here [] (fun j m hg => hg.elim) (Nat.zero_le _)
        h.length_levels

/-- A body without `UNLOOP` that is accepted is laid out as its words say, and the levels are
right. -/
theorem leveled_of_accepted {word : Nat} {name : String} {location : Location}
    (hws : ∀ x ∈ ws, x.2 ≠ .control .unloop)
    (hok : (do build ws; finish : Edit (Except Breach Code)) (opened word name location) =
      .ok (.ok code) d) :
    code.places = (BodyWord.layout 0 ws ++ [(none, 0)]).map Prod.fst ∧
      code.Leveled ((BodyWord.layout 0 ws ++ [(none, 0)]).map Prod.snd) := by
  rw [bind_apply] at hok
  cases hb : build ws (opened word name location) with
  | error c d' =>
    rw [hb] at hok
    cases hok
  | ok _ d' =>
    rw [hb] at hok
    exact leveled_finish (leveled_build hws (leveled_opened word name location) hb) hok

end Definition

/-! ## The layout of a loop -/

namespace BodyWord

/-- The number of counted loops around what follows the words. -/
def depthBehindAll (depth : Nat) (ws : List BodyWord) : Nat :=
  ws.foldl depthBehind depth

theorem layout_append (depth : Nat) (ws ws' : List (Option Location × BodyWord)) :
    layout depth (ws ++ ws') =
      layout depth ws ++ layout (depthBehindAll depth (ws.map Prod.snd)) ws' := by
  induction ws generalizing depth with
  | nil => rfl
  | cons x ws ih =>
    rw [List.cons_append, layout, ih, layout, List.append_assoc]
    rfl

theorem count_nextAll? {σ τ : List Construct.Kind} {ws : List BodyWord}
    (h : nextAll? ws σ = some τ) :
    τ.count .counted = depthBehindAll (σ.count .counted) ws := by
  induction ws generalizing σ with
  | nil =>
    cases h
    rfl
  | cons w ws ih =>
    obtain ⟨ρ, hw, hws⟩ := Option.bind_eq_some_iff.1 h
    rw [ih hws, Definition.count_next? hw]
    rfl

/-- A well-nested body opens and closes as many loops. -/
theorem depthBehindAll_of_wellNested {depth : Nat} {ws : List BodyWord} (h : WellNested depth ws) :
    depthBehindAll depth ws = depth := by
  have hcount : (List.replicate depth Construct.Kind.counted).count .counted = depth :=
    List.count_replicate_self
  have := count_nextAll? (h.nextAll? hcount)
  rw [hcount] at this
  exact this.symm

/-- A counted loop is laid out as its body is inside of one more loop.  The word that opens it has
as many loops around it as the loop has, and the one that closes it has as many as the body. -/
theorem layout_loop {depth : Nat} {o c : ControlWord} {a : List (Option Location × BodyWord)}
    (ho : o.opensLoop = true) (hc : c.closesLoop = true)
    (ha : WellNested (depth + 1) (a.map Prod.snd)) (l l' : Option Location) :
    layout depth ((l, .control o) :: (a ++ [(l', .control c)])) =
      (l, depth) :: (layout (depth + 1) a ++ [(l', depth + 1)]) := by
  have hopen : (control o).emits = true ∧ (control o).depthBehind depth = depth + 1 := by
    cases o <;> first | exact ⟨rfl, rfl⟩ | cases ho
  have hclose : (control c).emits = true := by
    cases c <;> first | rfl | cases hc
  rw [layout, hopen.1, hopen.2, layout_append, depthBehindAll_of_wellNested ha, layout, layout,
    hclose]
  rfl

end BodyWord

end StackLang
