import StackLang.Proofs.Definition.Levels

/-!
# What a word does to a definition

A word that is accepted appends an instruction or marks a place, and gives targets to branches that
have waited for them.  Everything else stays as it is: an instruction that waits for no target is
done with, whatever words follow.

* `Code.Rewritten`: code that has changed at some indices only, and may have grown.
* `Definition.Orderly`: the branches that wait are different instructions, each with a target to
  set.
* `Definition.Changes`, `changes_compileStep`: what a word does.
* `Definition.GrowsInto`, `growsInto_build`: what is done with is still there behind the words of a
  body.
-/

namespace StackLang

/-! ## Code -/

/-- The longer code has the same instructions, up to those at the indices `touched` and those that
are new, which are all of the kind `Written`.  Branches are still branches. -/
structure Code.Rewritten (touched : List Nat) (Written : Instruction → Prop) (code code' : Code) :
    Prop where
  size_le : Array.size code ≤ Array.size code'
  eq_or : ∀ {i : Nat} {x : Instruction}, code'[i]? = some x → code[i]? = some x ∨
    (i ∈ touched ∨ Array.size code ≤ i) ∧ Written x
  branch : ∀ {i : Nat} {x : Instruction}, code[i]? = some x → x.op.target?.isSome = true →
    ∃ y, code'[i]? = some y ∧ y.op.target?.isSome = true

namespace Code

variable {touched : List Nat} {Written : Instruction → Prop} {code code' : Code}
  {index target : Nat}

theorem getElem?_push_of_lt (x : Instruction) {i : Nat} (hi : i < Array.size code) :
    (Array.push code x)[i]? = code[i]? := by
  rw [Array.getElem?_push, if_neg (Nat.ne_of_lt hi)]

namespace Rewritten

theorem refl (code : Code) : Rewritten [] Written code code :=
  ⟨Nat.le_refl _, .inl, fun hx ht => ⟨_, hx, ht⟩⟩

/-- An instruction outside of `touched` is the same. -/
theorem same (h : Rewritten touched Written code code') {i : Nat} (hi : i < Array.size code)
    (ht : i ∉ touched) : code'[i]? = code[i]? := by
  have hx := Array.getElem?_eq_getElem (Nat.lt_of_lt_of_le hi h.size_le)
  rcases h.eq_or hx with hc | ⟨hi' | hi', -⟩
  · rw [hx, hc]
  · exact (ht hi').elim
  · omega

theorem push (code : Code) {x : Instruction} (hx : Written x) :
    Rewritten [] Written code (Array.push code x) where
  size_le := by simp
  eq_or := by
    intro i y hy
    rw [Array.getElem?_push] at hy
    split at hy
    · rename_i hi
      cases hy
      exact .inr ⟨.inr (Nat.le_of_eq hi.symm), hx⟩
    · exact .inl hy
  branch := fun {i y} hy ht =>
    ⟨y, (getElem?_push_of_lt x (Array.getElem?_eq_some_iff.1 hy).1).trans hy, ht⟩

/-- A branch may be changed into another one. -/
theorem modify {f : Instruction → Instruction} (h : Rewritten touched Written code code')
    (hindex : ∃ x, code[index]? = some x ∧ x.op.target?.isSome = true)
    (hf : ∀ x, x.op.target?.isSome = true → Written (f x) ∧ (f x).op.target?.isSome = true) :
    Rewritten (index :: touched) Written code (Array.modify code' index f) where
  size_le := by simpa using h.size_le
  eq_or := by
    intro i x hx
    rw [Array.getElem?_modify] at hx
    split at hx
    · rename_i hi
      obtain ⟨y, hy, hyt⟩ : ∃ y, code'[i]? = some y ∧ y.op.target?.isSome = true := by
        obtain ⟨x, hx, ht⟩ := hindex
        exact hi ▸ h.branch hx ht
      rw [hy] at hx
      cases hx
      exact .inr ⟨.inl (hi ▸ List.mem_cons_self), (hf y hyt).1⟩
    · exact (h.eq_or hx).imp_right fun ⟨hi, hw⟩ => ⟨hi.imp_left (List.mem_cons_of_mem _), hw⟩
  branch := by
    intro i x hx ht
    obtain ⟨y, hy, hy'⟩ := h.branch hx ht
    rw [Array.getElem?_modify, hy]
    split
    · exact ⟨f y, rfl, (hf y hy').2⟩
    · exact ⟨y, rfl, hy'⟩

theorem retarget (target : Nat) (h : Rewritten touched Written code code')
    (hindex : ∃ x, code[index]? = some x ∧ x.op.target?.isSome = true)
    (hw : ∀ x : Instruction, x.op.target?.isSome = true →
      Written { x with op := x.op.setTarget (some target) }) :
    Rewritten (index :: touched) Written code (code'.retarget target index) :=
  h.modify hindex fun x hx => ⟨hw x hx, by rw [Op.target?_setTarget]; simpa using hx⟩

theorem retargetAll (target : Nat) {indices : List Nat} (h : Rewritten touched Written code code')
    (hindices : ∀ i ∈ indices, ∃ x, code[i]? = some x ∧ x.op.target?.isSome = true)
    (hw : ∀ x : Instruction, x.op.target?.isSome = true →
      Written { x with op := x.op.setTarget (some target) }) :
    Rewritten (indices ++ touched) Written code (code'.retargetAll target indices) := by
  induction indices generalizing code' touched with
  | nil => exact h
  | cons index indices ih =>
    have := ih (h.retarget target (hindices index List.mem_cons_self) hw)
      fun i hi => hindices i (List.mem_cons_of_mem _ hi)
    refine ⟨this.size_le, fun hx => (this.eq_or hx).imp_right fun ⟨hi, hw⟩ => ⟨?_, hw⟩, this.branch⟩
    simpa [or_left_comm, or_assoc] using hi

theorem settle (direction : LoopDirection) (target : Nat) (h : Rewritten touched Written code code')
    (hindex : ∃ x, code[index]? = some x ∧ x.op.target?.isSome = true)
    (hw : ∀ x : Instruction, Written { x with op := Definition.settleLoop direction target x.op }) :
    Rewritten (index :: touched) Written code (code'.settle direction target index) :=
  h.modify hindex fun x _ => ⟨hw x, by unfold Definition.settleLoop; dsimp only; split <;> rfl⟩

end Rewritten

end Code

namespace Definition

/-! ## One word -/

/-- The branches that wait for a target are different instructions, and each is a branch. -/
structure Orderly (d : Definition) : Prop where
  distinct : d.waiting.Nodup
  branch : ∀ i ∈ d.waiting, ∃ x, d.code[i]? = some x ∧ x.op.target?.isSome = true

/-- The size of the code behind the word. -/
def sizeBehind (w : BodyWord) (d : Definition) : Nat :=
  d.code.size + if w.emits then 1 else 0

/-- An instruction that the word may write: it goes back to where an open structure starts, or on
behind the word, and it pushes a literal only if the word is that literal.  `UNLOOP` is written with
a target too, 0, where it never goes. -/
structure Writes (w : BodyWord) (d : Definition) (x : Instruction) : Prop where
  target : ∀ n, x.op.target? = some (some n) →
    n = 0 ∨ n = d.sizeBehind w ∨ ∃ c ∈ d.control, c.back? = some n
  literal : ∀ v, x.op = .push v → w = .literal v

/-- What a word does that is accepted.  It changes only branches that have waited, lets some of
them wait on, and appends one instruction at most, which may wait as well. -/
structure Changes (w : BodyWord) (d d' : Definition) : Prop where
  size : d'.code.size = d.sizeBehind w
  code : ∃ touched, (∀ i ∈ touched, i ∈ d.waiting) ∧
    Code.Rewritten touched (Writes w d) d.code d'.code
  waiting : ∃ fresh kept, d'.waiting.Perm (fresh ++ kept) ∧ kept.Sublist d.waiting ∧
    (fresh = [] ∨ fresh = [d.code.size] ∧
      ∃ x, d'.code[d.code.size]? = some x ∧ x.op.target?.isSome = true)
  back : ∀ c ∈ d'.control, ∀ n, c.back? = some n →
    (∃ c ∈ d.control, c.back? = some n) ∨ n = d.sizeBehind w

variable {d d' d'' : Definition} {l : Option Location} {w : BodyWord}

theorem Orderly.lt_size (h : d.Orderly) {i : Nat} (hi : i ∈ d.waiting) : i < d.code.size := by
  obtain ⟨x, hx, -⟩ := h.branch i hi
  exact (Array.getElem?_eq_some_iff.1 hx).1

theorem orderly_opened (word : Nat) (name : String) (location : Location) :
    (opened word name location).Orderly :=
  ⟨List.nodup_nil, nofun⟩

theorem sizeBehind_of_emits (hw : w.emits = true) : d.sizeBehind w = d.code.size + 1 := by
  simp [sizeBehind, hw]

theorem writes_setTarget {n : Nat} (hn : n = d.sizeBehind w) (x : Instruction)
    (hx : x.op.target?.isSome = true) : Writes w d { x with op := x.op.setTarget (some n) } where
  target := by
    intro m hm
    rw [Op.target?_setTarget] at hm
    obtain ⟨_, -, ⟨⟩⟩ := Option.map_eq_some_iff.1 hm
    exact .inr (.inl hn)
  literal := by
    intro v hv
    cases hop : x.op with
    | push v' =>
      rw [hop] at hx
      cases hx
    | _ => simp [hop, Op.setTarget] at hv

theorem writes_settleLoop {n : Nat} (hn : n = d.sizeBehind w) (direction : LoopDirection)
    (x : Instruction) : Writes w d { x with op := settleLoop direction n x.op } := by
  unfold settleLoop
  split
  all_goals
    refine ⟨fun m hm => ?_, fun _ h => by cases h⟩
    cases hm
    exact .inr (.inl hn)

/-- An instruction without a target, or with one that is still to be set. -/
theorem writes_of_none {x : Instruction} (ht : ∀ n, x.op.target? ≠ some (some n))
    (hv : ∀ v, x.op = .push v → w = .literal v) : Writes w d x :=
  ⟨fun n hn => (ht n hn).elim, hv⟩

/-- A branch back to the start of an open structure. -/
theorem writes_back {op : Op} {n : Nat} (ht : op.target? = some (some n)) (hv : ∀ v, op ≠ .push v)
    {c : Construct} (hc : c ∈ d.control) (hn : c.back? = some n) : Writes w d ⟨l, op⟩ where
  target := by
    intro m hm
    rw [show op.target? = some (some m) from hm] at ht
    cases ht
    exact .inr (.inr ⟨c, hc, hn⟩)
  literal := fun v hop => (hv v hop).elim

namespace Changes

/-- Appending an instruction that waits for nothing. -/
theorem push {x : Instruction} (hw : w.emits = true) (hc : d'.code = d.code.push x)
    (hx : Writes w d x) (hwait : d'.waiting = d.waiting)
    (hback : ∀ c ∈ d'.control, c ∈ d.control) : Changes w d d' where
  size := by rw [hc, Array.size_push, sizeBehind_of_emits hw]
  code := ⟨[], List.forall_mem_nil _, hc ▸ .push d.code hx⟩
  waiting := ⟨[], d.waiting, .of_eq hwait, .refl _, .inl rfl⟩
  back := fun c hc n hn => .inl ⟨c, hback c hc, hn⟩

/-- Appending a branch that waits for its target. -/
theorem pushBranch {x : Instruction} (hw : w.emits = true) (hc : d'.code = d.code.push x)
    (hop : x.op.target? = some none) (hwait : d'.waiting.Perm (d.code.size :: d.waiting))
    (hback : ∀ c ∈ d'.control, ∀ n, c.back? = some n →
      (∃ c ∈ d.control, c.back? = some n) ∨ n = d.code.size + 1) : Changes w d d' where
  size := by rw [hc, Array.size_push, sizeBehind_of_emits hw]
  code := by
    refine ⟨[], List.forall_mem_nil _, hc ▸ .push d.code (writes_of_none ?_ ?_)⟩
    · intro n hn
      rw [hop] at hn
      cases hn
    · intro v hv
      rw [hv] at hop
      cases hop
  waiting := by
    refine ⟨[d.code.size], d.waiting, hwait, .refl _, .inr ⟨rfl, x, by simp [hc], ?_⟩⟩
    rw [hop]
    rfl
  back := sizeBehind_of_emits hw ▸ hback

/-- Closing the innermost structure, whose branches get their targets. -/
theorem close {c : Construct} {rest : List Construct} {touched : List Nat}
    (hc : d.control = c :: rest) (hc' : d'.control = rest)
    (hsize : d'.code.size = d.sizeBehind w)
    (ht : ∀ i ∈ touched, i ∈ c.waiting)
    (hp : Code.Rewritten touched (Writes w d) d.code d'.code) : Changes w d d' := by
  have hw : d.waiting = c.waiting ++ d'.waiting := by
    simp [Definition.waiting, hc, hc']
  refine ⟨hsize, ⟨touched, fun i hi => hw ▸ List.mem_append_left _ (ht i hi), hp⟩,
    ⟨[], d'.waiting, .refl _, hw ▸ List.sublist_append_right _ _, .inl rfl⟩, fun c' hc'' n hn => ?_⟩
  exact .inl ⟨c', hc ▸ List.mem_cons_of_mem _ (hc' ▸ hc''), hn⟩

end Changes

/-- A `LEAVE` waits beside the branches that wait already. -/
theorem waiting_addLeave? {leave : Nat} {control control' : List Construct}
    (h : addLeave? leave control = some control') :
    (control'.flatMap Construct.waiting).Perm (leave :: control.flatMap Construct.waiting) := by
  fun_induction addLeave? leave control generalizing control' with
  | case1 => cases h
  | case2 marker leaves rest =>
    cases h
    exact List.Perm.swap _ _ _
  | case3 c rest hne ih =>
    obtain ⟨rest', hr, rfl⟩ := Option.map_eq_some_iff.1 h
    rw [List.flatMap_cons, List.flatMap_cons]
    exact ((ih hr).append_left _).trans List.perm_middle

section

variable (h : d.Orderly)
include h

/-- The branches of the innermost structure are there to be patched. -/
theorem Orderly.branch_of_head {c : Construct} {rest : List Construct}
    (hc : d.control = c :: rest) : ∀ i ∈ c.waiting, ∃ x, d.code[i]? = some x ∧
      x.op.target?.isSome = true :=
  fun i hi => h.branch i (List.mem_flatMap.2 ⟨c, hc ▸ List.mem_cons_self, hi⟩)

theorem changes_compileElse (hok : compileElse l d = .ok () d') :
    Changes (.control .openElse) d d' := by
  rw [compileElse_eq] at hok
  split at hok
  · rename_i branch rest hc
    cases hok
    have hbranch := h.branch_of_head hc branch (List.mem_singleton_self _)
    have hlt : branch < d.code.size := (Array.getElem?_eq_some_iff.1 hbranch.choose_spec.1).1
    have hw : d.waiting = branch :: rest.flatMap Construct.waiting := by
      simp [waiting, hc, Construct.waiting]
    have hx : Writes (.control .openElse) d ⟨l, .branch none⟩ :=
      writes_of_none (fun _ h => by cases h) fun _ h => by cases h
    have hp := (Code.Rewritten.push d.code hx).retarget (d.code.size + 1) hbranch
      (writes_setTarget rfl)
    refine ⟨by simp [sizeBehind, BodyWord.emits], ⟨_, fun i hi => ?_, hp⟩,
      ⟨[d.code.size], _, .refl _, hw ▸ List.sublist_cons_self _ _, .inr ⟨rfl, ?_⟩⟩, ?_⟩
    · exact hw ▸ List.mem_singleton.1 hi ▸ List.mem_cons_self
    · refine ⟨⟨l, .branch none⟩, ?_, rfl⟩
      unfold Code.retarget
      rw [Array.getElem?_modify, if_neg (Nat.ne_of_lt hlt), Array.getElem?_push_size]
    · intro c hc' n hn
      rcases List.mem_cons.1 hc' with rfl | hc'
      · cases hn
      · exact .inl ⟨c, hc ▸ List.mem_cons_of_mem _ hc', hn⟩
  · cases hok
  · cases hok

theorem changes_compileThen (hok : compileThen d = .ok () d') :
    Changes (.control .closeThen) d d' := by
  rw [compileThen_eq] at hok
  split at hok
  · rename_i hc
    cases hok
    exact .close hc rfl (by simp [sizeBehind, BodyWord.emits]) (fun _ hi => hi)
      ((Code.Rewritten.refl _).retarget _ (h.branch_of_head hc _ (List.mem_singleton_self _))
        (writes_setTarget rfl))
  · rename_i hc
    cases hok
    exact .close hc rfl (by simp [sizeBehind, BodyWord.emits]) (fun _ hi => hi)
      ((Code.Rewritten.refl _).retarget _ (h.branch_of_head hc _ (List.mem_singleton_self _))
        (writes_setTarget rfl))
  · cases hok
  · cases hok

omit h in
/-- A branch back to the start of a loop, which is closed. -/
theorem changes_of_back {op : Op} {start : Nat} {rest : List Construct} (hw : w.emits = true)
    (hop : op.target? = some (some start)) (hv : ∀ v, op ≠ .push v)
    (hc : d.control = .loopHead start :: rest) :
    Changes w d { d with code := d.code.push ⟨l, op⟩, control := rest } :=
  .push hw rfl (writes_back hop hv (hc ▸ List.mem_cons_self) rfl)
    (by simp [waiting, hc, Construct.waiting]) fun _ hc' => hc ▸ List.mem_cons_of_mem _ hc'

omit h in
theorem changes_compileWhile (hok : compileWhile l d = .ok () d') :
    Changes (.control .openWhile) d d' := by
  rw [compileWhile_eq] at hok
  split at hok
  · rename_i start rest hc
    cases hok
    refine .pushBranch rfl rfl rfl (.of_eq ?_) fun c hc' n hn => ?_
    · simp [waiting, hc, Construct.waiting]
    · rcases List.mem_cons.1 hc' with rfl | hc'
      · cases hn
      · exact .inl ⟨c, hc ▸ hc', hn⟩
  · cases hok
  · cases hok

theorem changes_compileRepeat (hok : compileRepeat l d = .ok () d') :
    Changes (.control .closeRepeat) d d' := by
  rw [compileRepeat_eq] at hok
  split at hok
  · rename_i branch start rest hc
    cases hok
    have hw : d.waiting = branch :: rest.flatMap Construct.waiting := by
      simp [waiting, hc, Construct.waiting]
    have hback : Writes (.control .closeRepeat) d ⟨l, .branch (some start)⟩ :=
      writes_back rfl (fun _ h => by cases h) (by simp [hc])
        (show (Construct.loopHead start).back? = _ from rfl)
    have hp := (Code.Rewritten.push d.code hback).retarget (d.code.size + 1)
      (h.branch_of_head hc branch (List.mem_singleton_self _)) (writes_setTarget rfl)
    refine ⟨by simp [sizeBehind, BodyWord.emits], ⟨_, fun i hi => ?_, hp⟩,
      ⟨[], _, .refl _, hw ▸ List.sublist_cons_self _ _, .inl rfl⟩, fun c hc' n hn => ?_⟩
    · exact hw ▸ List.mem_singleton.1 hi ▸ List.mem_cons_self
    · exact .inl ⟨c, by simp [hc, show c ∈ rest from hc'], hn⟩
  all_goals cases hok

theorem changes_compileLoop (plus : Bool) (hok : compileLoop l plus d = .ok () d') :
    Changes (.control (if plus then .closePlusLoop else .closeLoop)) d d' := by
  rw [compileLoop_eq] at hok
  split at hok
  · rename_i marker leaves rest hc
    cases hok
    have hbranch := h.branch_of_head hc
    have hw : (BodyWord.control (if plus then .closePlusLoop else .closeLoop)).emits = true := by
      cases plus <;> rfl
    have hback : Writes (.control (if plus then .closePlusLoop else .closeLoop)) d
        ⟨l, .loop (if plus then .nextBy else .next) (some (marker + 1))⟩ :=
      writes_back (by cases plus <;> rfl) (fun _ h => by cases h) (hc ▸ List.mem_cons_self) rfl
    have hp := ((Code.Rewritten.push d.code hback).settle
      (if plus then d.stepDirection marker else .ascending) (d.code.size + 1)
      (hbranch marker List.mem_cons_self)
        (writes_settleLoop (sizeBehind_of_emits hw).symm _)).retargetAll
      (d.code.size + 1) (fun i hi => hbranch i (List.mem_cons_of_mem _ hi))
      (writes_setTarget (sizeBehind_of_emits hw).symm)
    refine .close hc rfl ?_ (fun i hi => ?_) hp
    · simp [sizeBehind_of_emits hw, Code.settle]
    · simpa [Construct.waiting, or_comm] using hi
  · cases hok
  · cases hok

omit h in
theorem changes_compileLeave (hok : compileLeave l d = .ok () d') :
    Changes (.control .leave) d d' := by
  rw [compileLeave_eq] at hok
  split at hok
  · rename_i control ha
    cases hok
    refine .pushBranch rfl rfl rfl (waiting_addLeave? ha)
      fun c hc n hn => ?_
    obtain ⟨-, -, hb, -⟩ := addLeave?_eq_some ha
    obtain ⟨c', hc', hn'⟩ := List.mem_map.1
      (hb ▸ hn ▸ List.mem_map_of_mem (f := Construct.back?) hc)
    exact .inl ⟨c', hc', hn'⟩
  · cases hok

omit h in
theorem changes_compileLoopIndex {word : String} {depth : Nat} (hw : w.emits = true)
    (hok : compileLoopIndex l word depth d = .ok () d') : Changes w d d' := by
  rw [compileLoopIndex_eq] at hok
  split at hok
  · cases hok
  · cases hok
    exact .push hw rfl (writes_of_none (fun _ h => by cases h) fun _ h => by cases h) rfl
      fun _ hc => hc

/-- What each word does. -/
theorem changes_compileStep (hok : w.compileStep l d = .ok () d') : Changes w d d' := by
  cases w with
  | literal v =>
    cases hok
    exact .push rfl rfl (writes_of_none (fun _ h => by cases h) fun _ h => by cases h; rfl) rfl
      fun _ hc => hc
  | call builtin index =>
    cases hok
    exact .push rfl rfl (writes_of_none (fun _ h => by cases builtin <;> cases h)
      fun _ h => by cases builtin <;> cases h) rfl fun _ hc => hc
  | control w =>
    cases w with
    | openIf =>
      cases hok
      refine .pushBranch rfl rfl rfl (.refl _) fun c hc n hn => ?_
      rcases List.mem_cons.1 hc with rfl | hc
      · cases hn
      · exact .inl ⟨c, hc, hn⟩
    | openElse => exact changes_compileElse h hok
    | closeThen => exact changes_compileThen h hok
    | openBegin =>
      cases hok
      refine ⟨rfl, ⟨[], List.forall_mem_nil _, .refl _⟩,
        ⟨[], d.waiting, .refl _, .refl _, .inl rfl⟩, fun c hc n hn => ?_⟩
      rcases List.mem_cons.1 hc with rfl | hc
      · cases hn
        exact .inr rfl
      · exact .inl ⟨c, hc, hn⟩
    | closeUntil | closeAgain =>
      simp only [BodyWord.compileStep, ControlWord.compileStep, compileUntil_eq,
        compileAgain_eq] at hok
      split at hok
      · rename_i hc
        cases hok
        exact changes_of_back rfl rfl (fun _ h => by cases h) hc
      · cases hok
      · cases hok
    | openWhile => exact changes_compileWhile hok
    | closeRepeat => exact changes_compileRepeat h hok
    | openDo | openQueryDo =>
      cases hok
      refine .pushBranch rfl rfl rfl (.refl _) fun c hc n hn => ?_
      rcases List.mem_cons.1 hc with rfl | hc
      · cases hn
        exact .inr rfl
      · exact .inl ⟨c, hc, hn⟩
    | closeLoop => exact changes_compileLoop h false hok
    | closePlusLoop => exact changes_compileLoop h true hok
    | index | outerIndex => exact changes_compileLoopIndex rfl hok
    | leave => exact changes_compileLeave hok
    | unloop =>
      simp only [BodyWord.compileStep, ControlWord.compileStep, compileUnloop_eq] at hok
      split at hok
      · cases hok
      · cases hok
        refine .push rfl rfl ⟨fun n hn => ?_, fun _ h => by cases h⟩ rfl fun _ hc => hc
        cases hn
        exact .inl rfl
    | exit | recurse =>
      cases hok
      exact .push rfl rfl (writes_of_none (fun _ h => by cases h) fun _ h => by cases h) rfl
        fun _ hc => hc

end

theorem Changes.orderly (hc : Changes w d d') (h : d.Orderly) : d'.Orderly := by
  obtain ⟨touched, ht, hp⟩ := hc.code
  obtain ⟨fresh, kept, hw, hk, hf⟩ := hc.waiting
  constructor
  · rw [hw.nodup_iff]
    rcases hf with rfl | ⟨rfl, -⟩
    · exact h.distinct.sublist hk
    · refine List.nodup_cons.2 ⟨fun hmem => ?_, h.distinct.sublist hk⟩
      exact Nat.lt_irrefl _ (h.lt_size (hk.subset hmem))
  · intro i hi
    rcases List.mem_append.1 (hw.mem_iff.1 hi) with hi | hi
    · rcases hf with rfl | ⟨rfl, hx⟩
      · cases hi
      · exact List.mem_singleton.1 hi ▸ hx
    · obtain ⟨x, hx, ht⟩ := h.branch i (hk.subset hi)
      exact hp.branch hx ht

/-! ## Whole bodies -/

/-- Building has gone on, and the instructions that did not wait are what they were. -/
structure GrowsInto (d d' : Definition) : Prop where
  size_le : d.code.size ≤ d'.code.size
  kept : ∀ {i : Nat}, i < d.code.size → i ∉ d.waiting →
    d'.code[i]? = d.code[i]? ∧ i ∉ d'.waiting

theorem GrowsInto.refl (d : Definition) : d.GrowsInto d :=
  ⟨Nat.le_refl _, fun _ hw => ⟨rfl, hw⟩⟩

theorem GrowsInto.trans (h : d.GrowsInto d') (h' : d'.GrowsInto d'') : d.GrowsInto d'' where
  size_le := Nat.le_trans h.size_le h'.size_le
  kept := by
    intro i hi hw
    obtain ⟨hc, hw'⟩ := h.kept hi hw
    obtain ⟨hc', hw''⟩ := h'.kept (Nat.lt_of_lt_of_le hi h.size_le) hw'
    exact ⟨hc'.trans hc, hw''⟩

theorem Changes.growsInto (hc : Changes w d d') : d.GrowsInto d' := by
  obtain ⟨touched, ht, hp⟩ := hc.code
  obtain ⟨fresh, kept, hw, hk, hf⟩ := hc.waiting
  refine ⟨hp.size_le, fun {i} hi hwi => ⟨hp.same hi fun hti => hwi (ht i hti), fun hi' => ?_⟩⟩
  rcases List.mem_append.1 (hw.mem_iff.1 hi') with hi' | hi'
  · rcases hf with rfl | ⟨rfl, -⟩
    · cases hi'
    · exact Nat.ne_of_lt hi (List.mem_singleton.1 hi')
  · exact hwi (hk.subset hi')

variable {ws ws' : List (Option Location × BodyWord)} {code : Code}

/-- Words that are accepted one after the other are accepted in two parts. -/
theorem build_append (ws ws' : List (Option Location × BodyWord)) :
    build (ws ++ ws') = (do build ws; build ws') := by
  induction ws with
  | nil => rfl
  | cons x ws ih => simp only [List.cons_append, build, ih, bind_assoc]

theorem exists_of_build_append (hok : build (ws ++ ws') d = .ok () d'') :
    ∃ d', build ws d = .ok () d' ∧ build ws' d' = .ok () d'' := by
  rw [build_append, bind_apply] at hok
  cases hb : build ws d with
  | ok _ d' =>
    rw [hb] at hok
    exact ⟨d', rfl, hok⟩
  | error c d' =>
    rw [hb] at hok
    cases hok

theorem exists_of_build_cons (hok : build ((l, w) :: ws) d = .ok () d'') :
    ∃ d', w.compileStep l d = .ok () d' ∧ build ws d' = .ok () d'' := by
  rw [build, bind_apply] at hok
  cases hb : w.compileStep l d with
  | ok _ d' =>
    rw [hb] at hok
    exact ⟨d', rfl, hok⟩
  | error c d' =>
    rw [hb] at hok
    cases hok

theorem exists_of_accepted (hok : (do build ws; finish : Edit (Except Breach Code)) d =
    .ok (.ok code) d'') : ∃ d', build ws d = .ok () d' ∧ finish d' = .ok (.ok code) d'' := by
  rw [bind_apply] at hok
  cases hb : build ws d with
  | ok _ d' =>
    rw [hb] at hok
    exact ⟨d', rfl, hok⟩
  | error c d' =>
    rw [hb] at hok
    cases hok

/-- What each word keeps, a body keeps. -/
theorem build_induct {P : Definition → Prop}
    (step : ∀ {l : Option Location} {w : BodyWord} {d d' : Definition}, d.Orderly →
      w.compileStep l d = .ok () d' → P d → P d')
    (h : d.Orderly) (hP : P d) (hok : build ws d = .ok () d') : d'.Orderly ∧ P d' := by
  induction ws generalizing d with
  | nil =>
    cases hok
    exact ⟨h, hP⟩
  | cons x ws ih =>
    obtain ⟨d₁, hw, hok⟩ := exists_of_build_cons hok
    exact ih ((changes_compileStep h hw).orderly h) (step h hw hP) hok

theorem growsInto_build (h : d.Orderly) (hok : build ws d = .ok () d') :
    d'.Orderly ∧ d.GrowsInto d' :=
  build_induct (fun h hw he => he.trans (changes_compileStep h hw).growsInto) h (.refl d) hok

/-- The end of a definition only appends the exit. -/
theorem eq_push_of_finish (hok : finish d = .ok (.ok code) d') :
    code = d.code.push ⟨none, .exit⟩ ∧ d.control = [] := by
  rw [finish_eq] at hok
  split at hok
  · cases hok
  · rename_i hc
    split at hok <;> cases hok
    exact ⟨rfl, hc⟩

/-- What is done with at some point is part of the finished code. -/
theorem getElem?_of_finished (h : d.Orderly) (hok : build ws d = .ok () d')
    (hf : finish d' = .ok (.ok code) d'') {i : Nat} (hi : i < d.code.size) (hw : i ∉ d.waiting) :
    code[i]? = d.code[i]? := by
  obtain ⟨-, he⟩ := growsInto_build h hok
  obtain ⟨rfl, -⟩ := eq_push_of_finish hf
  rw [Code.getElem?_push_of_lt _ (Nat.lt_of_lt_of_le hi he.size_le), (he.kept hi hw).1]

end Definition

end StackLang
