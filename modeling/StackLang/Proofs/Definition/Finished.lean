import StackLang.Proofs.Definition.Edits

/-!
# Finished code is safe to run

A branch of a definition that is being built has its target already, or an open structure knows
that it is still to be patched; so when every structure is closed no branch is left without a
target, and none leaves the code.

* `Definition.Sound`: what every step of building keeps.
* `sound_compileStep`: the control words keep it, whether they are accepted or not.
* `finish_sound`: code that is handed over is `Code.Finished`.
-/

namespace StackLang

/-- Every branch has a target inside of the code, and the last instruction is an exit. -/
structure Code.Finished (code : Code) : Prop where
  inside : ∀ (i : Nat) (x : Instruction) (t : Target), code[i]? = some x →
    x.op.target? = some t → ∃ n, t = some n ∧ n < Array.size code
  last : ∃ l, Array.back? code = some ⟨l, .exit⟩

/-- The code of a word is not empty. -/
theorem Code.Finished.size_pos {code : Code} (h : code.Finished) : 0 < Array.size code := by
  obtain ⟨l, hl⟩ := h.last
  rw [Array.back?_eq_getElem?] at hl
  have := (Array.getElem?_eq_some_iff.1 hl).1
  omega

/-- An instruction that is no exit has another one behind it. -/
theorem Code.Finished.succ_lt {code : Code} (h : code.Finished) {i : Nat} {x : Instruction}
    (hx : code[i]? = some x) (hop : x.op ≠ .exit) : i + 1 < Array.size code := by
  obtain ⟨l, hl⟩ := h.last
  obtain ⟨hi, -⟩ := Array.getElem?_eq_some_iff.1 hx
  rw [Array.back?_eq_getElem?] at hl
  by_cases hlast : i + 1 = Array.size code
  · rw [show Array.size code - 1 = i by omega, hx] at hl
    cases hl
    exact absurd rfl hop
  · omega

/-- Every branch has a target that is no further than the end of the code, the branches at the
indices in `waiting` excepted. -/
def Code.PatchedBut (waiting : List Nat) (code : Code) : Prop :=
  ∀ (i : Nat) (x : Instruction) (t : Target), code[i]? = some x → x.op.target? = some t →
    i ∈ waiting ∨ ∃ n, t = some n ∧ n ≤ Array.size code

namespace Code.PatchedBut

variable {waiting waiting' : List Nat} {code : Code}

theorem push {l : Option Location} {op : Op} (h : PatchedBut waiting code)
    (hsub : ∀ i ∈ waiting, i ∈ waiting')
    (hop : ∀ t, op.target? = some t → Array.size code ∈ waiting' ∨
      ∃ n, t = some n ∧ n ≤ Array.size code + 1) :
    PatchedBut waiting' (Array.push code ⟨l, op⟩) := by
  intro i x t hx ht
  rw [Array.getElem?_push] at hx
  split at hx
  · rename_i hi
    cases hx
    simpa [hi] using hop t ht
  · rcases h i x t hx ht with hw | ⟨n, hn, hle⟩
    · exact .inl (hsub i hw)
    · exact .inr ⟨n, hn, by simp only [Array.size_push]; omega⟩

/-- A branch that gets a target need not wait any more. -/
theorem modify {index : Nat} {f : Instruction → Instruction}
    (h : PatchedBut (index :: waiting) code)
    (hf : ∀ x t, (f x).op.target? = some t → ∃ n, t = some n ∧ n ≤ Array.size code) :
    PatchedBut waiting (Array.modify code index f) := by
  intro i x t hx ht
  rw [Array.size_modify]
  rw [Array.getElem?_modify] at hx
  split at hx
  · rename_i hi
    obtain ⟨y, -, rfl⟩ := Option.map_eq_some_iff.1 hx
    exact .inr (hf y t ht)
  · rename_i hi
    rcases h i x t hx ht with hw | hn
    · exact .inl ((List.mem_cons.1 hw).resolve_left (Ne.symm hi))
    · exact .inr hn

theorem retarget {target index : Nat} (h : PatchedBut (index :: waiting) code)
    (ht : target ≤ Array.size code) : PatchedBut waiting (Code.retarget code target index) := by
  refine h.modify fun x t hx => ?_
  rw [Op.target?_setTarget] at hx
  obtain ⟨_, -, rfl⟩ := Option.map_eq_some_iff.1 hx
  exact ⟨target, rfl, ht⟩

theorem settle {direction : LoopDirection} {behind marker : Nat}
    (h : PatchedBut (marker :: waiting) code) (ht : behind ≤ Array.size code) :
    PatchedBut waiting (Code.settle code direction behind marker) := by
  refine h.modify fun x t hx => ⟨behind, ?_, ht⟩
  unfold Definition.settleLoop at hx
  split at hx <;> · cases hx; rfl

theorem retargetAll {target : Nat} {indices : List Nat} (h : PatchedBut (indices ++ waiting) code)
    (ht : target ≤ Array.size code) :
    PatchedBut waiting (Code.retargetAll code target indices) := by
  induction indices generalizing code with
  | nil => exact h
  | cons index indices ih =>
    exact ih (h.retarget ht) (by rwa [Code.size_retarget])

end Code.PatchedBut

/-! ## Open structures -/

/-- The branches that wait for the structure to be closed. -/
def Construct.waiting : Construct → List Nat
  | .ifArm branch | .elseArm branch | .whileExit branch => [branch]
  | .loopHead _ => []
  | .counted marker leaves => marker :: leaves

/-- The instruction that the end of the structure may go back to. -/
def Construct.back? : Construct → Option Nat
  | .loopHead start => some start
  | .counted marker _ => some (marker + 1)
  | _ => none

/-- Every `WHILE` stands directly inside its `BEGIN`. -/
def Construct.Paired : List Construct → Prop
  | [] => True
  | .whileExit _ :: rest => (∃ start outer, rest = .loopHead start :: outer) ∧ Paired rest
  | _ :: rest => Paired rest

namespace Definition

/-- The branches of the definition that are still to be patched. -/
def waiting (d : Definition) : List Nat :=
  d.control.flatMap Construct.waiting

/-- Every branch has a target or waits for one, and so does every place to go back to. -/
structure Sound (d : Definition) : Prop where
  patched : Code.PatchedBut d.waiting d.code
  back : ∀ c ∈ d.control, ∀ n, c.back? = some n → n ≤ d.code.size
  paired : Construct.Paired d.control

theorem sound_opened (word : Nat) (name : String) (location : Location) :
    (opened word name location).Sound where
  patched := fun i x t hx => by simp [opened] at hx
  back := fun c hc => by simp [opened] at hc
  paired := trivial

theorem Sound.record {d : Definition} (h : d.Sound) (token : String) : (d.record token).Sound :=
  ⟨h.patched, h.back, h.paired⟩

namespace Sound

variable {d : Definition} (h : d.Sound) (l : Option Location)
include h

theorem back_push (x : Instruction) :
    ∀ c ∈ d.control, ∀ n, c.back? = some n → n ≤ (d.code.push x).size := by
  intro c hc n hn
  have := h.back c hc n hn
  rw [Array.size_push]
  omega

/-- Appending an instruction whose target, if it has one, is known. -/
theorem push {op : Op} (hop : ∀ t, op.target? = some t → ∃ n, t = some n ∧ n ≤ d.code.size) :
    Sound { d with code := d.code.push ⟨l, op⟩ } where
  patched := h.patched.push (fun _ hi => hi) fun t ht => by
    obtain ⟨n, hn, hle⟩ := hop t ht
    exact .inr ⟨n, hn, by omega⟩
  back := h.back_push _
  paired := h.paired

/-- Appending an instruction that waits for the structure that it opens. -/
theorem push_open {op : Op} {c : Construct} (hw : d.code.size ∈ c.waiting)
    (hb : ∀ n, c.back? = some n → n ≤ d.code.size + 1)
    (hp : Construct.Paired (c :: d.control)) :
    Sound { d with code := d.code.push ⟨l, op⟩, control := c :: d.control } where
  patched := h.patched.push (fun _ hi => List.mem_append_right _ hi)
    fun _ _ => .inl (List.mem_append_left _ hw)
  back := by
    intro c' hc n hn
    rcases List.mem_cons.1 hc with rfl | hc
    · simpa using hb n hn
    · exact h.back_push _ c' hc n hn
  paired := hp

theorem paired_tail {c : Construct} {rest : List Construct} (hc : d.control = c :: rest) :
    Construct.Paired rest := by
  have := h.paired
  rw [hc] at this
  cases c <;> first | exact this | exact this.2

/-- A structure may be closed when its branches wait no more. -/
theorem close {code : Code} {c : Construct} {rest : List Construct} (hc : d.control = c :: rest)
    (hcode : Code.PatchedBut (rest.flatMap Construct.waiting) code)
    (hsize : d.code.size ≤ code.size) : Sound { d with code, control := rest } where
  patched := hcode
  back := fun c' hc' n hn =>
    Nat.le_trans (h.back c' (hc ▸ List.mem_cons_of_mem _ hc') n hn) hsize
  paired := h.paired_tail hc

/-- The innermost structure may give way to another one. -/
theorem reopen {code : Code} {c c' : Construct} {rest : List Construct}
    (hc : d.control = c :: rest)
    (hcode : Code.PatchedBut (c'.waiting ++ rest.flatMap Construct.waiting) code)
    (hsize : d.code.size ≤ code.size) (hb : ∀ n, c'.back? = some n → n ≤ code.size)
    (hp : Construct.Paired (c' :: rest)) : Sound { d with code, control := c' :: rest } where
  patched := hcode
  back := by
    intro e he n hn
    rcases List.mem_cons.1 he with rfl | he
    · exact hb n hn
    · exact Nat.le_trans (h.back e (hc ▸ List.mem_cons_of_mem _ he) n hn) hsize
  paired := hp

theorem patched_cons {c : Construct} {rest : List Construct} (hc : d.control = c :: rest) :
    Code.PatchedBut (c.waiting ++ rest.flatMap Construct.waiting) d.code := by
  have := h.patched
  rwa [waiting, hc, List.flatMap_cons] at this

theorem back_head {c : Construct} {rest : List Construct} (hc : d.control = c :: rest) {n : Nat}
    (hn : c.back? = some n) : n ≤ d.code.size :=
  h.back c (hc ▸ List.mem_cons_self) n hn

end Sound

/-! ## The control words -/

/-- A `LEAVE` waits for its loop; nothing else about the open structures changes. -/
theorem addLeave?_eq_some {leave : Nat} {control control' : List Construct}
    (ha : addLeave? leave control = some control') :
    leave ∈ control'.flatMap Construct.waiting ∧
      (∀ i ∈ control.flatMap Construct.waiting, i ∈ control'.flatMap Construct.waiting) ∧
      control'.map Construct.back? = control.map Construct.back? ∧
      (Construct.Paired control → Construct.Paired control') := by
  fun_induction addLeave? leave control generalizing control' with
  | case1 => cases ha
  | case2 marker leaves rest =>
    cases ha
    refine ⟨by simp [Construct.waiting], fun i hi => ?_, rfl, id⟩
    simp only [List.flatMap_cons, Construct.waiting, List.mem_append, List.mem_cons] at hi ⊢
    rcases hi with (hi | hi) | hi <;> simp [hi]
  | case3 c rest hne ih =>
    obtain ⟨rest', hr, rfl⟩ := Option.map_eq_some_iff.1 ha
    obtain ⟨hl, hi, hb, hp⟩ := ih hr
    refine ⟨List.mem_append_right _ hl, fun i h => ?_, by simp [hb], fun h => ?_⟩
    · rcases List.mem_append.1 h with h | h
      · exact List.mem_append_left _ h
      · exact List.mem_append_right _ (hi i h)
    · cases c with
      | whileExit branch =>
        obtain ⟨⟨start, outer, rfl⟩, h⟩ := h
        obtain ⟨outer', -, rfl⟩ := Option.map_eq_some_iff.1 hr
        exact ⟨⟨start, outer', rfl⟩, hp h⟩
      | counted marker leaves => exact (hne marker leaves rfl).elim
      | _ => exact hp h

section

variable {d : Definition} (h : d.Sound) (l : Option Location)
include h

theorem sound_compileIf : After Sound (compileIf l d) := by
  rw [compileIf_eq]
  exact h.push_open l (List.mem_singleton_self _) (fun _ hn => by cases hn) h.paired

theorem sound_compileElse : After Sound (compileElse l d) := by
  rw [compileElse_eq]
  split
  · rename_i branch rest hc
    have hp : Code.PatchedBut (branch :: d.code.size :: rest.flatMap Construct.waiting)
        (d.code.push ⟨l, .branch none⟩) :=
      (h.patched_cons hc).push
        (fun i hi => by
          rcases List.mem_cons.1 hi with rfl | hi
          · exact List.mem_cons_self
          · exact List.mem_cons_of_mem _ (List.mem_cons_of_mem _ hi))
        fun _ _ => .inl (List.mem_cons_of_mem _ List.mem_cons_self)
    exact h.reopen hc (hp.retarget (by simp)) (by simp) (fun _ hn => by cases hn)
      (show Construct.Paired rest from h.paired_tail hc)
  · exact h
  · exact h

theorem sound_compileThen : After Sound (compileThen d) := by
  rw [compileThen_eq]
  split
  · rename_i hc
    exact h.close hc ((h.patched_cons hc).retarget (Nat.le_refl _)) (by simp)
  · rename_i hc
    exact h.close hc ((h.patched_cons hc).retarget (Nat.le_refl _)) (by simp)
  · exact h
  · exact h

theorem sound_compileBegin : After Sound (compileBegin d) := by
  rw [compileBegin_eq]
  refine ⟨h.patched, fun c hc n hn => ?_, h.paired⟩
  rcases List.mem_cons.1 hc with rfl | hc
  · cases hn
    exact Nat.le_refl _
  · exact h.back c hc n hn

theorem sound_compileUntil : After Sound (compileUntil l d) := by
  rw [compileUntil_eq]
  split
  · rename_i start rest hc
    refine h.close hc ((h.patched_cons hc).push (fun _ hi => hi) fun t ht => ?_) (by simp)
    cases ht
    exact .inr ⟨start, rfl, Nat.le_succ_of_le (h.back_head hc rfl)⟩
  · exact h
  · exact h

theorem sound_compileAgain : After Sound (compileAgain l d) := by
  rw [compileAgain_eq]
  split
  · rename_i start rest hc
    refine h.close hc ((h.patched_cons hc).push (fun _ hi => hi) fun t ht => ?_) (by simp)
    cases ht
    exact .inr ⟨start, rfl, Nat.le_succ_of_le (h.back_head hc rfl)⟩
  · exact h
  · exact h

theorem sound_compileWhile : After Sound (compileWhile l d) := by
  rw [compileWhile_eq]
  split
  · rename_i start rest hc
    have hs : Sound { d with
        code := d.code.push ⟨l, .branchIfFalse none⟩
        control := .whileExit d.code.size :: d.control } :=
      h.push_open l (List.mem_singleton_self _) (fun _ hn => by cases hn)
        ⟨⟨start, rest, hc⟩, h.paired⟩
    rwa [hc] at hs
  · exact h
  · exact h

/-- `REPEAT` finds the `BEGIN` below its `WHILE`, so it is refused with nothing changed. -/
theorem sound_compileRepeat : After Sound (compileRepeat l d) := by
  rw [compileRepeat_eq]
  split
  · rename_i branch start rest hc
    have hp : Code.PatchedBut (branch :: rest.flatMap Construct.waiting)
        (d.code.push ⟨l, .branch (some start)⟩) :=
      (h.patched_cons hc).push (fun _ hi => hi) fun t ht => by
        cases ht
        exact .inr ⟨start, rfl, Nat.le_succ_of_le
          (h.back (.loopHead start) (by simp [hc]) start rfl)⟩
    refine ⟨hp.retarget (by simp), fun c hc' n hn => ?_, ?_⟩
    · have := h.back c (by simp [hc, hc']) n hn
      simp
      omega
    · have := h.paired
      rw [hc] at this
      exact this.2
  · rename_i branch c rest hne hc
    obtain ⟨⟨start, outer, he⟩, -⟩ := hc ▸ h.paired
    cases he
    exact (hne _ rfl).elim
  · rename_i branch hc
    obtain ⟨⟨start, outer, he⟩, -⟩ := hc ▸ h.paired
    cases he
  · exact h
  · exact h

theorem sound_compileDo (query : Bool) : After Sound (compileDo l query d) := by
  rw [compileDo_eq]
  refine h.push_open l (List.mem_cons_self) (fun n hn => ?_) h.paired
  cases hn
  exact Nat.le_refl _

theorem sound_compileLoop (plus : Bool) : After Sound (compileLoop l plus d) := by
  rw [compileLoop_eq]
  split
  · rename_i marker leaves rest hc
    have hp : Code.PatchedBut (marker :: (leaves ++ rest.flatMap Construct.waiting))
        (d.code.push ⟨l, .loop (if plus then .nextBy else .next) (some (marker + 1))⟩) :=
      (h.patched_cons hc).push (fun _ hi => hi) fun t ht => by
        cases ht
        exact .inr ⟨marker + 1, rfl, Nat.le_succ_of_le (h.back_head hc rfl)⟩
    exact h.close hc ((hp.settle (by simp)).retargetAll (by simp [Code.settle]))
      (by simp [Code.settle])
  · exact h
  · exact h

theorem sound_compileLeave : After Sound (compileLeave l d) := by
  rw [compileLeave_eq]
  split
  · rename_i control ha
    obtain ⟨hl, hi, hb, hp⟩ := addLeave?_eq_some ha
    refine ⟨h.patched.push hi fun _ _ => .inl hl, fun c hc n hn => ?_, hp h.paired⟩
    have hmem : some n ∈ d.control.map Construct.back? :=
      hb ▸ hn ▸ List.mem_map_of_mem hc
    obtain ⟨c', hc', hn'⟩ := List.mem_map.1 hmem
    exact h.back_push _ c' hc' n hn'
  · exact h

theorem sound_compileUnloop : After Sound (compileUnloop l d) := by
  rw [compileUnloop_eq]
  split
  · exact h
  · refine h.push l fun t ht => ?_
    cases ht
    exact ⟨0, rfl, Nat.zero_le _⟩

theorem sound_compileLoopIndex (word : String) (depth : Nat) :
    After Sound (compileLoopIndex l word depth d) := by
  rw [compileLoopIndex_eq]
  split
  · exact h
  · exact h.push l fun t ht => by cases ht

/-- Every control word keeps a definition sound. -/
theorem sound_compileStep (w : ControlWord) : After Sound (w.compileStep l d) := by
  cases w with
  | openIf => exact sound_compileIf h l
  | openElse => exact sound_compileElse h l
  | closeThen => exact sound_compileThen h
  | openBegin => exact sound_compileBegin h
  | closeUntil => exact sound_compileUntil h l
  | closeAgain => exact sound_compileAgain h l
  | openWhile => exact sound_compileWhile h l
  | closeRepeat => exact sound_compileRepeat h l
  | openDo => exact sound_compileDo h l false
  | openQueryDo => exact sound_compileDo h l true
  | closeLoop => exact sound_compileLoop h l false
  | closePlusLoop => exact sound_compileLoop h l true
  | index => exact sound_compileLoopIndex h l "I" 0
  | outerIndex => exact sound_compileLoopIndex h l "J" 1
  | leave => exact sound_compileLeave h l
  | unloop => exact sound_compileUnloop h l
  | exit => exact h.push l fun t ht => by cases ht
  | recurse => exact h.push l fun t ht => by cases ht

end

/-! ## Finishing -/

/-- A search for a stray branch finds none where every branch stays inside. -/
theorem strayTarget?_eq_none {code : Code}
    (h : ∀ (i : Nat) (x : Instruction) (t : Target), code[i]? = some x →
      x.op.target? = some t → ∃ n, t = some n ∧ n < Array.size code) :
    strayTarget? code = none := by
  unfold strayTarget?
  rw [List.findSome?_eq_none_iff]
  rintro ⟨x, i⟩ hx
  have hx' : code[i]? = some x := by
    simpa using List.mem_zipIdx_iff_getElem?.1 hx
  dsimp only
  split
  · rename_i n ht
    obtain ⟨m, hm, hlt⟩ := h i x _ hx' ht
    cases hm
    rw [if_pos hlt]
  · rename_i ht
    obtain ⟨m, hm, -⟩ := h i x _ hx' ht
    cases hm
  · rfl

/-- With every structure closed, each branch of the code stays inside once the exit is there. -/
theorem Sound.finished {d : Definition} (h : d.Sound) (hc : d.control = []) :
    Code.Finished (d.code.push ⟨none, .exit⟩) where
  inside := by
    intro i x t hx ht
    have hp : Code.PatchedBut [] d.code := by simpa [waiting, hc] using h.patched
    rw [Array.getElem?_push] at hx
    split at hx
    · cases hx
      cases ht
    · obtain ⟨n, hn, hle⟩ := (hp i x t hx ht).resolve_left (by simp)
      exact ⟨n, hn, by simp; omega⟩
  last := ⟨none, by simp⟩

/-- With the code handed over, building may start again. -/
theorem Sound.emptied {d : Definition} (h : d.Sound) (hc : d.control = []) :
    Sound { d with code := #[] } where
  patched := fun i x t hx => by simp at hx
  back := fun c hc' => by simp [hc] at hc'
  paired := h.paired

/-- A sound definition is refused with nothing changed, or its finished code is handed over. -/
theorem finish_sound {d : Definition} (h : d.Sound) :
    (∃ c, finish d = .error c d) ∨
      ∃ code, code.Finished ∧ Sound { d with code := #[] } ∧
        finish d = .ok (.ok code) { d with code := #[] } := by
  rw [finish_eq]
  cases hc : d.control with
  | cons c rest => exact .inl ⟨c.unclosed, rfl⟩
  | nil =>
    have hf := h.finished hc
    rw [strayTarget?_eq_none hf.inside]
    exact .inr ⟨_, hf, hc ▸ h.emptied hc, rfl⟩

end Definition

end StackLang
