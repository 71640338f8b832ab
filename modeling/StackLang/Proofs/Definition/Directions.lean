import StackLang.Proofs.Definition.Growth

/-!
# The direction of a loop

Closing a loop with `+LOOP` gives the loop the direction of the literal right before it.  `THEN`
compiles to nothing, so that the last instruction need not be the one that comes before `+LOOP` on
every path: behind a `THEN` it may belong to one arm only.

* `loop_of_finished`: the two ends of a counted loop in the finished code.
* `Definition.Avoids`: no branch lands at an instruction, and none that follows will.
* `stepDirection_of_compileStep`: the direction is that of the word before `+LOOP`.
* `directed_of_accepted`: with a direction recorded, the word before `+LOOP` is the literal that it
  is taken from, or a `THEN` that has sent a branch to the `+LOOP`.
-/

namespace StackLang

/-- The direction that a value gives to a loop as a literal step. -/
def Value.stepDirection (v : Value) : LoopDirection :=
  match v.int? with
  | some n => if n < 0 then .descending else .ascending
  | none => .unknown

/-- The direction that a word right before `+LOOP` gives to the loop. -/
def BodyWord.stepDirection : BodyWord → LoopDirection
  | literal v => v.stepDirection
  | _ => .unknown

/-- The number of instructions that the words of a body compile to. -/
def BodyWord.instructions (ws : List (Option Location × BodyWord)) : Nat :=
  ws.countP (·.2.emits)

/-- The direction of the counted loop that the operation opens. -/
def Op.direction? : Op → Option LoopDirection
  | .loop (.start direction) _ | .loop (.startUnlessEqual direction) _ => some direction
  | _ => none

theorem Op.direction?_settleLoop (direction : LoopDirection) (behind : Nat) (op : Op) :
    (Definition.settleLoop direction behind op).direction? = some direction := by
  unfold Definition.settleLoop
  split <;> rfl

theorem Op.target?_settleLoop (direction : LoopDirection) (behind : Nat) (op : Op) :
    (Definition.settleLoop direction behind op).target? = some (some behind) := by
  unfold Definition.settleLoop
  split <;> rfl

theorem Code.getElem?_retargetAll {code : Code} {target i : Nat} {indices : List Nat}
    (hi : i ∉ indices) : (code.retargetAll target indices)[i]? = code[i]? := by
  induction indices generalizing code with
  | nil => rfl
  | cons index indices ih =>
    rw [List.mem_cons, not_or] at hi
    show ((code.retarget target index).retargetAll target indices)[i]? = _
    rw [ih hi.2]
    unfold Code.retarget
    rw [Array.getElem?_modify, if_neg (Ne.symm hi.1)]

namespace Definition

variable {d d' d'' : Definition} {l : Option Location} {w : BodyWord} {q : Nat}
  {ws pre post : List (Option Location × BodyWord)} {code : Code}

theorem size_build (h : d.Orderly) (hok : build ws d = .ok () d') :
    d'.code.size = d.code.size + BodyWord.instructions ws := by
  induction ws generalizing d with
  | nil =>
    cases hok
    rfl
  | cons x ws ih =>
    obtain ⟨d₁, hw, hok⟩ := exists_of_build_cons hok
    have hc := changes_compileStep h hw
    rw [ih (hc.orderly h) hok, hc.size, sizeBehind, BodyWord.instructions, BodyWord.instructions,
      List.countP_cons]
    omega

/-! ## The two ends of a loop -/

/-- What closing a loop makes of its two ends. -/
structure Closes (plus : Bool) (l : Option Location) (d d' : Definition) (marker : Nat) :
    Prop where
  control : ∃ leaves, d.control = .counted marker leaves :: d'.control
  closing : d'.code[d.code.size]? =
    some ⟨l, .loop (if plus then .nextBy else .next) (some (marker + 1))⟩
  opening : d'.code[marker]? = d.code[marker]?.map fun x => ⟨x.location,
    settleLoop (if plus then d.stepDirection marker else .ascending) (d.code.size + 1) x.op⟩
  done : d.code.size ∉ d'.waiting ∧ marker ∉ d'.waiting

theorem Closes.marker_lt {plus : Bool} {marker : Nat} (hc : Closes plus l d d' marker)
    (h : d.Orderly) : marker < d.code.size := by
  obtain ⟨leaves, hcontrol⟩ := hc.control
  exact h.lt_size (by simp [waiting, hcontrol, Construct.waiting])

theorem exists_closes (plus : Bool) (h : d.Orderly) (hok : compileLoop l plus d = .ok () d') :
    ∃ marker, Closes plus l d d' marker := by
  rw [compileLoop_eq] at hok
  split at hok
  · rename_i marker leaves rest hc
    cases hok
    have hw : d.waiting = marker :: (leaves ++ rest.flatMap Construct.waiting) := by
      simp [waiting, hc, Construct.waiting]
    obtain ⟨hmarker, -⟩ := List.nodup_cons.1 (hw ▸ h.distinct)
    rw [List.mem_append, not_or] at hmarker
    have hlt : ∀ i ∈ leaves ++ rest.flatMap Construct.waiting, i < d.code.size :=
      fun i hi => h.lt_size (hw ▸ List.mem_cons_of_mem _ hi)
    have hmarker_lt : marker < d.code.size := h.lt_size (hw ▸ List.mem_cons_self)
    refine ⟨marker, ⟨leaves, hc⟩, ?_, ?_, fun hi => ?_, hmarker.2⟩
    · refine (Code.getElem?_retargetAll fun hi => ?_).trans ?_
      · exact Nat.lt_irrefl _ (hlt _ (List.mem_append_left _ hi))
      · unfold Code.settle
        rw [Array.getElem?_modify, if_neg (Nat.ne_of_lt hmarker_lt), Array.getElem?_push_size]
    · refine (Code.getElem?_retargetAll hmarker.1).trans ?_
      unfold Code.settle
      rw [Array.getElem?_modify, if_pos rfl, Code.getElem?_push_of_lt _ hmarker_lt]
    · exact Nat.lt_irrefl _ (hlt _ (List.mem_append_right _ hi))
  · cases hok
  · cases hok

/-- The two ends are still there in the finished code. -/
theorem loop_of_finished (plus : Bool) {d₀ d₁ d₂ : Definition} {marker : Nat} (h : d₀.Orderly)
    (hw : BodyWord.compileStep l (.control (if plus then .closePlusLoop else .closeLoop)) d₀ =
      .ok () d₁)
    (hc : Closes plus l d₀ d₁ marker) (hpost : build post d₁ = .ok () d₂)
    (hf : finish d₂ = .ok (.ok code) d') :
    code[d₀.code.size]? =
        some ⟨l, .loop (if plus then .nextBy else .next) (some (marker + 1))⟩ ∧
      code[marker]? = d₀.code[marker]?.map fun x => ⟨x.location,
        settleLoop (if plus then d₀.stepDirection marker else .ascending) (d₀.code.size + 1)
          x.op⟩ := by
  have hchanges := changes_compileStep h hw
  have hsize : d₁.code.size = d₀.code.size + 1 := by
    rw [hchanges.size]
    exact sizeBehind_of_emits (by cases plus <;> rfl)
  have hmarker := hc.marker_lt h
  have horderly := hchanges.orderly h
  constructor
  · rw [getElem?_of_finished horderly hpost hf (by omega) hc.done.1, hc.closing]
  · rw [getElem?_of_finished horderly hpost hf (by omega) hc.done.2, hc.opening]

/-! ## Where no branch lands -/

/-- No branch lands at instruction `q`, and no open structure is going to send one there. -/
structure Avoids (q : Nat) (d : Definition) : Prop where
  pos : 0 < q
  le_size : q ≤ d.code.size
  back : ∀ c ∈ d.control, c.back? ≠ some q
  branch : ∀ (i : Nat) (x : Instruction), d.code[i]? = some x → x.op.target? ≠ some (some q)

/-- A word only sends branches to where a structure starts, or behind itself. -/
theorem Avoids.next (ha : d.Avoids q) (hc : Changes w d d')
    (hlt : q < d.code.size ∨ w.emits = true) : d'.Avoids q := by
  have hsize := hc.size
  have hq : q < d'.code.size := by
    have hle := ha.le_size
    rcases hlt with hlt | hw
    · rw [hsize, sizeBehind]
      omega
    · rw [hsize, sizeBehind_of_emits hw]
      omega
  refine ⟨ha.pos, Nat.le_of_lt hq, fun c hc' hn => ?_, fun i x hx hn => ?_⟩
  · rcases hc.back c hc' q hn with ⟨c, hc, hn⟩ | hn
    · exact ha.back c hc hn
    · omega
  · obtain ⟨touched, -, hp⟩ := hc.code
    rcases hp.eq_or hx with hx | ⟨-, hwrites⟩
    · exact ha.branch i x hx hn
    · rcases hwrites.target q hn with rfl | hn | ⟨c, hc, hn⟩
      · exact Nat.lt_irrefl _ ha.pos
      · omega
      · exact ha.back c hc hn

theorem Avoids.build (ha : d.Avoids q) (h : d.Orderly) (hlt : q < d.code.size)
    (hok : build ws d = .ok () d') : d'.Avoids q := by
  have hall := build_induct (P := fun d => d.Avoids q ∧ q < d.code.size)
    (fun h hw ⟨ha, hlt⟩ => by
      have hc := changes_compileStep h hw
      exact ⟨ha.next hc (.inl hlt), Nat.lt_of_lt_of_le hlt hc.growsInto.size_le⟩) h ⟨ha, hlt⟩ hok
  exact hall.2.1

/-- Nor does one land there when the exit has been appended. -/
theorem Avoids.closed (ha : d.Avoids q) {i : Nat} {x : Instruction}
    (hx : (d.code.push ⟨none, .exit⟩)[i]? = some x) : x.op.target? ≠ some (some q) := by
  rw [Array.getElem?_push] at hx
  split at hx
  · cases hx
    exact nofun
  · exact ha.branch i x hx

theorem Avoids.finish (ha : d.Avoids q) (hf : finish d = .ok (.ok code) d') {i : Nat}
    {x : Instruction} (hx : code[i]? = some x) : x.op.target? ≠ some (some q) := by
  obtain ⟨rfl, -⟩ := eq_push_of_finish hf
  exact ha.closed hx

/-- Every branch has its target within the code so far, or just behind it. -/
structure Bounded (d : Definition) : Prop where
  back : ∀ c ∈ d.control, ∀ n, c.back? = some n → n ≤ d.code.size
  branch : ∀ (i : Nat) (x : Instruction) (n : Nat), d.code[i]? = some x →
    x.op.target? = some (some n) → n ≤ d.code.size

theorem Bounded.next (hb : d.Bounded) (hc : Changes w d d') : d'.Bounded := by
  have hle := hc.growsInto.size_le
  have hsize := hc.size
  refine ⟨fun c hc' n hn => ?_, fun i x n hx hn => ?_⟩
  · rcases hc.back c hc' n hn with ⟨c, hc, hn⟩ | hn
    · exact Nat.le_trans (hb.back c hc n hn) hle
    · exact Nat.le_of_eq (hn.trans hsize.symm)
  · obtain ⟨touched, -, hp⟩ := hc.code
    rcases hp.eq_or hx with hx | ⟨-, hwrites⟩
    · exact Nat.le_trans (hb.branch i x n hx hn) hle
    · rcases hwrites.target n hn with rfl | hn | ⟨c, hc, hn⟩
      · exact Nat.zero_le _
      · exact Nat.le_of_eq (hn.trans hsize.symm)
      · exact Nat.le_trans (hb.back c hc n hn) hle

theorem bounded_opened (word : Nat) (name : String) (location : Location) :
    (opened word name location).Bounded :=
  ⟨List.forall_mem_nil _, fun i x n hx => by simp [opened] at hx⟩

/-- Right behind a literal no branch has landed yet. -/
theorem Bounded.avoids {v : Value} (hb : d.Bounded)
    (hok : BodyWord.compileStep l (.literal v) d = .ok () d') : d'.Avoids d'.code.size := by
  cases hok
  refine ⟨by simp, Nat.le_refl _, fun c hc hn => ?_, fun i x hx hn => ?_⟩
  · have hle := hb.back c hc _ hn
    rw [Array.size_push] at hle
    omega
  · rw [Array.getElem?_push] at hx
    split at hx
    · cases hx
      cases hn
    · have hle := hb.branch i x _ hx hn
      rw [Array.size_push] at hle
      omega

/-! ## The word before `+LOOP` -/

/-- Closing the two arms of an `IF` sends a branch to the instruction that follows. -/
theorem exists_landing_of_arm (h : d.Orderly) {c : Construct} {rest : List Construct} {branch : Nat}
    (hc : d.control = c :: rest) (hw : c.waiting = [branch])
    (hd' : d' = { d with
      code := Code.retarget d.code d.code.size branch
      control := rest }) :
    ∃ (i : Nat) (x : Instruction), i ∉ d'.waiting ∧ d'.code[i]? = some x ∧
      x.op.target? = some (some d'.code.size) := by
  subst hd'
  have hwait : d.waiting = branch :: rest.flatMap Construct.waiting := by
    simp [waiting, hc, hw]
  obtain ⟨x, hx, ht⟩ := h.branch branch (hwait ▸ List.mem_cons_self)
  refine ⟨branch, ⟨x.location, x.op.setTarget (some d.code.size)⟩,
    (List.nodup_cons.1 (hwait ▸ h.distinct)).1, ?_, ?_⟩
  · unfold Code.retarget
    rw [Array.getElem?_modify, if_pos rfl, hx]
    rfl
  · obtain ⟨t, ht⟩ := Option.isSome_iff_exists.1 ht
    simp [Op.target?_setTarget, ht]

theorem exists_landing_of_compileThen (h : d.Orderly) (hok : compileThen d = .ok () d') :
    ∃ (i : Nat) (x : Instruction), i ∉ d'.waiting ∧ d'.code[i]? = some x ∧
      x.op.target? = some (some d'.code.size) := by
  rw [compileThen_eq] at hok
  split at hok
  · rename_i hc
    cases hok
    exact exists_landing_of_arm h hc rfl rfl
  · rename_i hc
    cases hok
    exact exists_landing_of_arm h hc rfl rfl
  · cases hok
  · cases hok

/-- The last instruction is a literal only if the last word with an instruction is one. -/
theorem stepDirection_of_compileStep (h : d.Orderly) {marker : Nat} (hw : w.emits = true)
    (hmarker : marker ∈ d'.waiting) (hok : w.compileStep l d = .ok () d') :
    d'.stepDirection marker = w.stepDirection := by
  cases w with
  | literal v =>
    cases hok
    have hlt : marker < d.code.size := h.lt_size hmarker
    unfold stepDirection
    dsimp only
    rw [Array.back?_push, Array.size_push, Nat.add_sub_cancel]
    dsimp only
    rw [if_pos hlt]
    rfl
  | _ =>
    have hc := changes_compileStep h hok
    obtain ⟨touched, -, hp⟩ := hc.code
    have hsize := hc.size.trans (sizeBehind_of_emits hw)
    unfold stepDirection
    rw [Array.back?_eq_getElem?, hsize, Nat.add_sub_cancel]
    split
    · rename_i l' v hx
      rcases hp.eq_or hx with hx | ⟨-, hwrites⟩
      · have := (Array.getElem?_eq_some_iff.1 hx).1
        omega
      · cases hwrites.literal v rfl
    · rfl

/-- What stands right before a `+LOOP` that has recorded a direction: a `THEN`, which has sent a
branch there, or the literal that the direction is taken from. -/
theorem cases_of_stepDirection {word : Nat} {name : String} {location : Location} {marker : Nat}
    {leaves : List Nat} {rest : List Construct}
    (hpre : build pre (opened word name location) = .ok () d)
    (hcontrol : d.control = .counted marker leaves :: rest)
    (hd : d.stepDirection marker ≠ .unknown) :
    (∃ l', pre.getLast? = some (l', .control .closeThen) ∧
        ∃ (i : Nat) (x : Instruction), i ∉ d.waiting ∧ d.code[i]? = some x ∧
          x.op.target? = some (some d.code.size)) ∨
      ∃ l' v, pre.getLast? = some (l', .literal v) ∧ d.stepDirection marker = v.stepDirection ∧
        marker + 1 < d.code.size ∧ d.code[d.code.size - 1]? = some ⟨l', .push v⟩ ∧
        d.Avoids d.code.size := by
  obtain rfl | ⟨before, ⟨l', w⟩, rfl⟩ := List.eq_nil_or_concat pre
  · cases hpre
    cases hcontrol
  · rw [List.concat_eq_append] at hpre ⊢
    obtain ⟨d₀, hbefore, hlast⟩ := exists_of_build_append hpre
    obtain ⟨d₁, hw, hnil⟩ := exists_of_build_cons hlast
    cases hnil
    obtain ⟨horderly, hbounded⟩ := build_induct (P := Bounded)
      (fun h hw hb => hb.next (changes_compileStep h hw)) (orderly_opened word name location)
      (bounded_opened word name location) hbefore
    have hmarker : marker ∈ d.waiting := by simp [waiting, hcontrol, Construct.waiting]
    simp only [List.getLast?_append, List.getLast?_singleton, Option.some_or, Option.some.injEq,
      Prod.mk.injEq]
    cases he : w.emits with
    | true =>
      rw [stepDirection_of_compileStep horderly he hmarker hw] at hd ⊢
      cases w with
      | literal v =>
        refine .inr ⟨l', v, ⟨rfl, rfl⟩, rfl, ?_, ?_, hbounded.avoids hw⟩
        · cases hw
          have hlt : marker < d₀.code.size := horderly.lt_size hmarker
          simpa using hlt
        · cases hw
          simp
      | call builtin index | control w => exact (hd rfl).elim
    | false =>
      cases w with
      | literal v | call builtin index => cases he
      | control w =>
        cases w with
        | closeThen =>
          exact .inl ⟨l', ⟨rfl, rfl⟩, exists_landing_of_compileThen horderly hw⟩
        | openBegin =>
          cases hw
          cases hcontrol
        | _ => cases he

/-! ## Whole definitions -/

/-- The two ends of a loop that `+LOOP` closes, and what a direction says that is recorded there.
Either a branch lands at the `+LOOP`, from a `THEN` right before it, or the literal right before it
is the direction's, and no branch goes around that literal. -/
theorem directed_of_accepted {word : Nat} {name : String} {location : Location}
    (hok : (do build (pre ++ (l, .control .closePlusLoop) :: post); finish :
      Edit (Except Breach Code)) (opened word name location) = .ok (.ok code) d) :
    ∃ (p : Nat) (x : Instruction) (direction : LoopDirection),
      p < BodyWord.instructions pre ∧
      code[BodyWord.instructions pre]? = some ⟨l, .loop .nextBy (some (p + 1))⟩ ∧
      code[p]? = some x ∧ x.op.direction? = some direction ∧
      x.op.target? = some (some (BodyWord.instructions pre + 1)) ∧
      (direction ≠ .unknown →
        (∃ l', pre.getLast? = some (l', .control .closeThen) ∧ ∃ (i : Nat) (y : Instruction),
            code[i]? = some y ∧ y.op.target? = some (some (BodyWord.instructions pre))) ∨
          ∃ l' v, pre.getLast? = some (l', .literal v) ∧ direction = v.stepDirection ∧
            p + 1 < BodyWord.instructions pre ∧
            code[BodyWord.instructions pre - 1]? = some ⟨l', .push v⟩ ∧
            ∀ (i : Nat) (y : Instruction), code[i]? = some y →
              y.op.target? ≠ some (some (BodyWord.instructions pre))) := by
  obtain ⟨d₂, hbuild, hf⟩ := exists_of_accepted hok
  obtain ⟨d₀, hpre, hrest⟩ := exists_of_build_append hbuild
  obtain ⟨d₁, hw, hpost⟩ := exists_of_build_cons hrest
  have hstart := orderly_opened word name location
  have horderly := (growsInto_build hstart hpre).1
  have hsize : d₀.code.size = BodyWord.instructions pre := by
    rw [size_build hstart hpre]
    exact Nat.zero_add _
  obtain ⟨p, hcloses⟩ := exists_closes true horderly hw
  obtain ⟨hq, hp⟩ := loop_of_finished true horderly hw hcloses hpost hf
  have hlt := hcloses.marker_lt horderly
  rw [Array.getElem?_eq_getElem hlt] at hp
  have hchanges := changes_compileStep horderly hw
  have horderly₁ := hchanges.orderly horderly
  have hsize₁ : d₁.code.size = d₀.code.size + 1 := hchanges.size
  -- What is done with before the `+LOOP` is so in the finished code.
  have hdone {i : Nat} (hi : i < d₀.code.size) (hwait : i ∉ d₀.waiting) :
      code[i]? = d₀.code[i]? := by
    obtain ⟨hc, hwait₁⟩ := hchanges.growsInto.kept hi hwait
    rw [getElem?_of_finished horderly₁ hpost hf (by omega) hwait₁, hc]
  rw [← hsize]
  refine ⟨p, _, d₀.stepDirection p, hlt, hq, hp, Op.direction?_settleLoop ..,
    Op.target?_settleLoop .., fun hd => ?_⟩
  obtain ⟨leaves, hcontrol⟩ := hcloses.control
  rcases cases_of_stepDirection hpre hcontrol hd with
    ⟨l', hlast, i, y, hi, hy, ht⟩ | ⟨l', v, hlast, hv, hlt', hpush, havoids⟩
  · refine .inl ⟨l', hlast, i, y, ?_, ht⟩
    rw [hdone (Array.getElem?_eq_some_iff.1 hy).1 hi, hy]
  · refine .inr ⟨l', v, hlast, hv, hlt', ?_, fun i y hy => ?_⟩
    · rw [hdone (by omega) fun hwait => ?_, hpush]
      obtain ⟨x, hx, ht⟩ := horderly.branch _ hwait
      rw [hpush] at hx
      cases hx
      cases ht
    · exact ((havoids.next hchanges (.inr rfl)).build horderly₁ (by omega) hpost).finish hf hy

end Definition

end StackLang
