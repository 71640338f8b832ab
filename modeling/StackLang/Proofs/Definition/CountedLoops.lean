import StackLang.Proofs.Definition.Directions
import StackLang.Proofs.Definition.Enclosed

/-!
# The code of a counted loop

In the code of a definition that is accepted, a counted loop lies between the instruction that opens
it and the one that closes it, and control does not leave its body but at the end.

* `LoopEnd`: the two ways to close a counted loop whose step is known.
* `Code.Counted`: the instructions of such a loop, with the direction of its step.
* `counted_of_accepted`: every such loop of a definition has them.
-/

namespace StackLang

/-- The end of a counted loop: `LOOP`, or `+LOOP` behind a literal step. -/
inductive LoopEnd
  | loop (l : Option Location)
  | plusLoop (l₁ : Option Location) (v : Value) (l₂ : Option Location)

namespace LoopEnd

def words : LoopEnd → List (Option Location × BodyWord)
  | loop l => [(l, .control .closeLoop)]
  | plusLoop l₁ v l₂ => [(l₁, .literal v), (l₂, .control .closePlusLoop)]

/-- The step, if it is an integer. -/
def step? : LoopEnd → Option Int64
  | loop _ => some 1
  | plusLoop _ v _ => v.int?

def direction : LoopEnd → LoopDirection
  | loop _ => .ascending
  | plusLoop _ v _ => v.stepDirection

theorem direction_eq {e : LoopEnd} {n : Int64} (h : e.step? = some n) :
    e.direction = if n < 0 then .descending else .ascending := by
  cases e with
  | loop l =>
    cases h
    rfl
  | plusLoop l₁ v l₂ =>
    have hn : v.int? = some n := h
    show v.stepDirection = _
    rw [Value.stepDirection, hn]

/-- The instructions that close the loop, for a body that starts at `first`. -/
def code (first : Nat) : LoopEnd → List Instruction
  | loop l => [⟨l, .loop .next (some first)⟩]
  | plusLoop l₁ v l₂ => [⟨l₁, .push v⟩, ⟨l₂, .loop .nextBy (some first)⟩]

theorem instructions_words (e : LoopEnd) : BodyWord.instructions e.words = e.words.length := by
  cases e <;> rfl

end LoopEnd

/-- A counted loop that opens at `start`, and whose body goes from there up to `last`. -/
structure Code.Counted (code : Code) (query : Bool) (e : LoopEnd) (depth start last : Nat) :
    Prop where
  opening : ∃ l, code[start]? = some ⟨l, .loop
    (if query then .startUnlessEqual e.direction else .start e.direction)
    (some (last + e.words.length))⟩
  body : code.Encloses depth (fun _ => False) (start + 1) last
  closing : ∀ i x, (e.code (start + 1))[i]? = some x → code[last + i]? = some x
  behind_lt : last + e.words.length < code.size

namespace Definition

variable {d d' : Definition} {l : Option Location} {query : Bool} {e : LoopEnd}
  {body post : List (Option Location × BodyWord)} {code : Code}

/-- The instruction that opens a loop whose direction and end are known. -/
theorem settleLoop_start (query : Bool) (direction : LoopDirection) (behind : Nat) (t : Target) :
    settleLoop direction behind
        (.loop (if query then .startUnlessEqual .unknown else .start .unknown) t) =
      .loop (if query then .startUnlessEqual direction else .start direction) (some behind) := by
  cases query <;> rfl

/-- The two ends of a loop in the finished code, by the words that close it. -/
theorem ends_of_finished {d₁ : Definition} {marker : Nat} {leaves : List Nat}
    {rest : List Construct} (h : d.Orderly) (hc : d.control = .counted marker leaves :: rest)
    (hw : build (e.words ++ post) d = .ok () d₁) (hf : finish d₁ = .ok (.ok code) d') :
    (∀ i x, (e.code (marker + 1))[i]? = some x → code[d.code.size + i]? = some x) ∧
      code[marker]? = d.code[marker]?.map fun x => ⟨x.location,
        settleLoop e.direction (d.code.size + e.words.length) x.op⟩ := by
  have hmarker : marker ∈ d.waiting := by simp [waiting, hc, Construct.waiting]
  cases e with
  | loop l =>
    obtain ⟨d₂, hw, hpost⟩ := exists_of_build_cons hw
    obtain ⟨marker', hcloses⟩ := exists_closes false h hw
    obtain ⟨leaves', hcontrol⟩ := hcloses.control
    cases hc.symm.trans hcontrol
    obtain ⟨hq, hp⟩ := loop_of_finished false h hw hcloses hpost hf
    refine ⟨fun i x hx => ?_, hp⟩
    obtain ⟨rfl, rfl⟩ := by simpa [LoopEnd.code, List.getElem?_singleton] using hx
    exact hq
  | plusLoop l₁ v l₂ =>
    obtain ⟨d₂, hv, hrest⟩ := exists_of_build_cons hw
    have hlt := h.lt_size hmarker
    have horderly := (changes_compileStep h hv).orderly h
    have hwaits : marker ∈ d₂.waiting := by
      cases hv
      exact hmarker
    have hdirection := stepDirection_of_compileStep h (w := .literal v) rfl hwaits hv
    cases hv
    -- The literal waits for nothing, so that it is still there behind the `+LOOP`.
    have hpush : code[d.code.size]? = some ⟨l₁, .push v⟩ := by
      rw [getElem?_of_finished horderly hrest hf (by simp) fun hi => ?_, Array.getElem?_push_size]
      exact Nat.lt_irrefl _ (h.lt_size hi)
    obtain ⟨d₃, hclose, hpost⟩ := exists_of_build_cons hrest
    obtain ⟨marker', hcloses⟩ := exists_closes true horderly hclose
    obtain ⟨leaves', hcontrol⟩ := hcloses.control
    cases hc.symm.trans hcontrol
    obtain ⟨hq, hp⟩ := loop_of_finished true horderly hclose hcloses hpost hf
    rw [if_pos rfl, hdirection, Code.getElem?_push_of_lt _ hlt] at hp
    simp only [Array.size_push] at hp hq
    refine ⟨fun i x hx => ?_, hp⟩
    rcases i with _ | _ | i
    · cases hx
      exact hpush
    · cases hx
      exact hq
    · cases hx

/-- A counted loop of a definition that is accepted, with a well-nested body of words that stay
inside. -/
theorem counted_of_accepted {pre : List (Option Location × BodyWord)} {word depth : Nat}
    {name : String} {location : Location}
    (hok : (do build (pre ++ (l, .control (if query then .openQueryDo else .openDo)) ::
        (body ++ (e.words ++ post))); finish : Edit (Except Breach Code))
      (opened word name location) = .ok (.ok code) d)
    (hbody : WellNested depth (body.map Prod.snd)) (hin : ∀ x ∈ body, x.2.staysInside = true) :
    code.Counted query e depth (BodyWord.instructions pre)
      (BodyWord.instructions pre + 1 + BodyWord.instructions body) := by
  obtain ⟨d₃, hbuild, hf⟩ := exists_of_accepted hok
  obtain ⟨d₀, hpre, hrest⟩ := exists_of_build_append hbuild
  obtain ⟨d₁, hopen, hrest⟩ := exists_of_build_cons hrest
  obtain ⟨d₂, hlays, hclose⟩ := exists_of_build_append hrest
  have hstart := orderly_opened word name location
  have horderly₀ := (growsInto_build hstart hpre).1
  have horderly₁ := (changes_compileStep horderly₀ hopen).orderly horderly₀
  have horderly₂ := (growsInto_build horderly₁ hlays).1
  have hsize₀ : d₀.code.size = BodyWord.instructions pre := by
    rw [size_build hstart hpre]
    exact Nat.zero_add _
  have hsize₂ := size_build horderly₁ hlays
  have hl := lays_build hbody hin hlays
  rw [show BodyWord.compileStep l (.control (if query then .openQueryDo else .openDo)) =
    compileDo l query by cases query <;> rfl, compileDo_eq] at hopen
  cases hopen
  simp only [Array.size_push, hsize₀] at hsize₂
  obtain ⟨hclosing, hopening⟩ := ends_of_finished horderly₂ hl.control hclose hf
  rw [hl.same _ (by simp), Array.getElem?_push_size, Option.map_some, settleLoop_start, hsize₀,
    hsize₂] at hopening
  rw [hsize₀, hsize₂] at hclosing
  have hsize₃ : d₃.code.size = d₂.code.size + (e.words.length + BodyWord.instructions post) := by
    rw [size_build horderly₂ hclose, ← LoopEnd.instructions_words]
    exact congrArg _ List.countP_append
  have hbehind : d₂.code.size + e.words.length < code.size := by
    rw [(eq_push_of_finish hf).1, Array.size_push]
    omega
  refine ⟨⟨l, hopening⟩, ?_, hclosing, hsize₂ ▸ hbehind⟩
  have hbody : code.Encloses _ _ _ _ := hl.encloses.congr fun i hi hi' =>
    getElem?_of_finished horderly₂ hclose hf hi' fun hw => ?_
  · rwa [Array.size_push, hsize₀, hsize₂] at hbody
  · -- What waits now has waited before the body, and so lies before it.
    rw [waiting, hl.control] at hw
    exact Nat.lt_irrefl _ (Nat.lt_of_lt_of_le (horderly₁.lt_size hw) hi)

end Definition

end StackLang
