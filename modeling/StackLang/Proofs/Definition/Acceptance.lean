import StackLang.Proofs.Definition.Grammar

/-!
# Exactly the well-nested bodies are accepted

Building knows only the structures that are open.  They say how the words so far can be read: as
bodies that are complete, with the openings of those structures in between.  So a body that leaves
nothing open is well nested; and because every open structure can be closed, building fails with
the first word behind which there is no way to go on.

* `Unfinished`: how the words so far are read, given what is open.
* `WellNested.nextAll?`: a well-nested body is accepted, and leaves open what was open.
* `unfinished_of_nextAll?`, `Unfinished.exists_closing`: words that are accepted are the beginning
  of a well-nested body.
* `accepts_iff_wellNested`: what is accepted, and how early the rest is refused.
-/

namespace StackLang

open BodyWord (nextAll? nextAll?_append)

variable {depth : Nat} {σ τ : List Construct.Kind} {ws x : List BodyWord}

/-! ## Well-nested bodies are accepted -/

theorem BodyWord.next?_of_isPlain {w : BodyWord} (hw : w.isPlain = true) : w.next? σ = some σ := by
  cases w with
  | literal v | call builtin index => rfl
  | control w => cases w <;> first | rfl | cases hw

theorem BodyWord.next?_of_opensLoop {w : ControlWord} (hw : w.opensLoop = true) :
    (control w).next? σ = some (.counted :: σ) := by
  cases w <;> first | rfl | cases hw

theorem BodyWord.next?_of_closesLoop {w : ControlWord} (hw : w.closesLoop = true) :
    (control w).next? (.counted :: σ) = some σ := by
  cases w <;> first | rfl | cases hw

/-- A word in front of a body, and the body. -/
theorem nextAll?_cons {w : BodyWord} (hw : w.next? σ = some τ) (hws : nextAll? ws τ = some τ)
    (rest : List BodyWord) : nextAll? (w :: (ws ++ rest)) σ = nextAll? rest τ := by
  rw [nextAll?, hw, Option.bind_some, nextAll?_append, hws, Option.bind_some]

mutual

/-- A well-nested body leaves open what was open before it. -/
theorem WellNested.nextAll? {depth : Nat} {ws : List BodyWord} {σ : List Construct.Kind} :
    WellNested depth ws → σ.count .counted = depth → BodyWord.nextAll? ws σ = some σ
  | .nil, _ => rfl
  | .cons hx hws, h => by
    rw [nextAll?_append, hx.nextAll? h, Option.bind_some, hws.nextAll? h]

theorem Phrase.nextAll? {depth : Nat} {x : List BodyWord} {σ : List Construct.Kind} :
    Phrase depth x → σ.count .counted = depth → BodyWord.nextAll? x σ = some σ
  | .plain hw, _ => by rw [BodyWord.nextAll?, BodyWord.next?_of_isPlain hw]; rfl
  | .ifThen ha, h => nextAll?_cons rfl (ha.nextAll? (σ := .ifArm :: σ) h) _
  | .ifElse ha hb, h =>
    (nextAll?_cons rfl (ha.nextAll? (σ := .ifArm :: σ) h) _).trans
      (nextAll?_cons rfl (hb.nextAll? (σ := .elseArm :: σ) h) _)
  | .untilLoop ha, h => nextAll?_cons rfl (ha.nextAll? (σ := .loopHead :: σ) h) _
  | .again ha, h => nextAll?_cons rfl (ha.nextAll? (σ := .loopHead :: σ) h) _
  | .whileLoop ha hb, h =>
    (nextAll?_cons rfl (ha.nextAll? (σ := .loopHead :: σ) h) _).trans
      (nextAll?_cons rfl (hb.nextAll? (σ := .whileExit :: .loopHead :: σ) h) _)
  | .counted ho hc ha, h => by
    rw [nextAll?_cons (BodyWord.next?_of_opensLoop ho)
      (ha.nextAll? (σ := .counted :: σ) (by simpa using h))]
    exact congrArg (Option.bind · _) (BodyWord.next?_of_closesLoop hc)
  | .leave hd, h => congrArg (Option.bind · _) (if_pos (h ▸ hd))
  | .unloop hd, h => congrArg (Option.bind · _) (if_pos (h ▸ hd))
  | .index hd, h => congrArg (Option.bind · _) (if_pos (h ▸ hd))
  | .outerIndex hd, h => congrArg (Option.bind · _) (if_pos (h ▸ hd))

end

/-! ## What is accepted can be completed -/

/-- The words so far, with structures of the kinds in `σ` open: the words before each of them are
themselves unfinished, and the parts behind its opening are well nested. -/
inductive Unfinished : (σ : List Construct.Kind) → List BodyWord → Prop
  | body {ws : List BodyWord} (h : WellNested 0 ws) : Unfinished [] ws
  | ifArm {σ : List Construct.Kind} {pre a : List BodyWord} (h : Unfinished σ pre)
      (ha : WellNested (σ.count .counted) a) :
    Unfinished (.ifArm :: σ) (pre ++ .control .openIf :: a)
  | elseArm {σ : List Construct.Kind} {pre a b : List BodyWord} (h : Unfinished σ pre)
      (ha : WellNested (σ.count .counted) a) (hb : WellNested (σ.count .counted) b) :
    Unfinished (.elseArm :: σ) (pre ++ .control .openIf :: (a ++ .control .openElse :: b))
  | loopHead {σ : List Construct.Kind} {pre a : List BodyWord} (h : Unfinished σ pre)
      (ha : WellNested (σ.count .counted) a) :
    Unfinished (.loopHead :: σ) (pre ++ .control .openBegin :: a)
  | whileExit {σ : List Construct.Kind} {pre a b : List BodyWord} (h : Unfinished σ pre)
      (ha : WellNested (σ.count .counted) a) (hb : WellNested (σ.count .counted) b) :
    Unfinished (.whileExit :: .loopHead :: σ)
      (pre ++ .control .openBegin :: (a ++ .control .openWhile :: b))
  | counted {σ : List Construct.Kind} {o : ControlWord} {pre a : List BodyWord}
      (ho : o.opensLoop = true) (h : Unfinished σ pre)
      (ha : WellNested (σ.count .counted + 1) a) :
    Unfinished (.counted :: σ) (pre ++ .control o :: a)

namespace Unfinished

/-- A phrase goes to the innermost part. -/
theorem snoc (h : Unfinished σ ws) (hx : Phrase (σ.count .counted) x) :
    Unfinished σ (ws ++ x) := by
  cases h with
  | body h => exact body (h.snoc hx)
  | ifArm h ha => simpa using ifArm h (ha.snoc hx)
  | elseArm h ha hb => simpa using elseArm h ha (hb.snoc hx)
  | loopHead h ha => simpa using loopHead h (ha.snoc hx)
  | whileExit h ha hb => simpa using whileExit h ha (hb.snoc hx)
  | counted ho h ha => simpa using counted ho h (ha.snoc (by simpa using hx))

/-- A control word that is allowed opens a part, or closes a phrase or is one. -/
theorem control (h : Unfinished σ ws) {w : ControlWord} (hw : w.next? σ = some τ) :
    Unfinished τ (ws ++ [.control w]) := by
  cases w with
  | openIf =>
    cases hw
    exact ifArm h .nil
  | openElse =>
    cases h with
    | ifArm h ha =>
      cases hw
      simpa using elseArm h ha .nil
    | _ => cases hw
  | closeThen =>
    cases h with
    | ifArm h ha =>
      cases hw
      simpa using h.snoc (.ifThen ha)
    | elseArm h ha hb =>
      cases hw
      simpa using h.snoc (.ifElse ha hb)
    | _ => cases hw
  | openBegin =>
    cases hw
    exact loopHead h .nil
  | closeUntil =>
    cases h with
    | loopHead h ha =>
      cases hw
      simpa using h.snoc (.untilLoop ha)
    | _ => cases hw
  | closeAgain =>
    cases h with
    | loopHead h ha =>
      cases hw
      simpa using h.snoc (.again ha)
    | _ => cases hw
  | openWhile =>
    cases h with
    | loopHead h ha =>
      cases hw
      simpa using whileExit h ha .nil
    | _ => cases hw
  | closeRepeat =>
    cases h with
    | whileExit h ha hb =>
      cases hw
      simpa using h.snoc (.whileLoop ha hb)
    | _ => cases hw
  | openDo | openQueryDo =>
    cases hw
    exact counted rfl h .nil
  | closeLoop | closePlusLoop =>
    cases h with
    | counted ho h ha =>
      cases hw
      simpa using h.snoc (.counted ho rfl ha)
    | _ => cases hw
  | index =>
    obtain ⟨hd, ⟨⟩⟩ := Option.ite_none_right_eq_some.1 hw
    exact h.snoc (.index hd)
  | outerIndex =>
    obtain ⟨hd, ⟨⟩⟩ := Option.ite_none_right_eq_some.1 hw
    exact h.snoc (.outerIndex hd)
  | leave =>
    obtain ⟨hd, ⟨⟩⟩ := Option.ite_none_right_eq_some.1 hw
    exact h.snoc (.leave hd)
  | unloop =>
    obtain ⟨hd, ⟨⟩⟩ := Option.ite_none_right_eq_some.1 hw
    exact h.snoc (.unloop hd)
  | exit | recurse =>
    cases hw
    exact h.snoc (.plain rfl)

theorem next (h : Unfinished σ ws) {w : BodyWord} (hw : w.next? σ = some τ) :
    Unfinished τ (ws ++ [w]) := by
  cases w with
  | literal v | call builtin index =>
    cases hw
    exact h.snoc (.plain rfl)
  | control w => exact h.control hw

theorem nextAll (h : Unfinished σ ws) (hx : nextAll? x σ = some τ) : Unfinished τ (ws ++ x) := by
  induction x generalizing σ ws with
  | nil =>
    cases hx
    simpa using h
  | cons w x ih =>
    obtain ⟨ρ, hw, hx⟩ := Option.bind_eq_some_iff.1 hx
    simpa using ih (h.next hw) hx

/-- Every structure can be closed, the innermost first. -/
theorem exists_closing (h : Unfinished σ ws) : ∃ rest, nextAll? rest σ = some [] := by
  induction h with
  | body h => exact ⟨[], rfl⟩
  | ifArm h ha ih | elseArm h ha hb ih =>
    obtain ⟨rest, hr⟩ := ih
    exact ⟨.control .closeThen :: rest, hr⟩
  | loopHead h ha ih =>
    obtain ⟨rest, hr⟩ := ih
    exact ⟨.control .closeAgain :: rest, hr⟩
  | whileExit h ha hb ih =>
    obtain ⟨rest, hr⟩ := ih
    exact ⟨.control .closeRepeat :: rest, hr⟩
  | counted ho h ha ih =>
    obtain ⟨rest, hr⟩ := ih
    exact ⟨.control .closeLoop :: rest, hr⟩

end Unfinished

theorem unfinished_of_nextAll? (h : nextAll? ws [] = some σ) : Unfinished σ ws :=
  (Unfinished.body .nil).nextAll h

/-- The words that leave nothing open are the well-nested bodies. -/
theorem nextAll?_eq_nil_iff : nextAll? ws [] = some [] ↔ WellNested 0 ws := by
  constructor
  · intro h
    cases unfinished_of_nextAll? h with
    | body h => exact h
  · exact fun h => h.nextAll? rfl

/-! ## The definition -/

namespace Definition

variable {d d' : Definition}

/-- A sound definition can be finished if nothing is open. -/
theorem finish_ok_iff (h : d.Sound) :
    (∃ code d', finish d = .ok (.ok code) d') ↔ d.kinds = [] := by
  rw [kinds, List.map_eq_nil_iff]
  constructor
  · rintro ⟨code, d', hf⟩
    rw [finish_eq] at hf
    cases hc : d.control with
    | nil => rfl
    | cons c rest =>
      rw [hc] at hf
      cases hf
  · intro hc
    rcases finish_sound h with ⟨c, hf⟩ | ⟨code, -, -, hf⟩
    · rw [finish_eq, hc] at hf
      dsimp only at hf
      split at hf <;> cases hf
    · exact ⟨code, _, hf⟩

/-- A body is accepted if its words are allowed and leave nothing open. -/
theorem accepts_iff (h : d.Sound) (ws : List (Option Location × BodyWord)) :
    d.Accepts ws ↔ nextAll? (ws.map (·.2)) d.kinds = some [] := by
  have hk := kinds_build ws d
  have hs := sound_build ws h
  unfold Accepts
  rw [bind_apply]
  cases hb : build ws d with
  | ok _ d' =>
    rw [hb] at hk hs
    rw [show nextAll? (ws.map (·.2)) d.kinds = some d'.kinds from hk, Option.some.injEq]
    exact finish_ok_iff hs
  | error c d' =>
    rw [hb] at hk
    rw [show nextAll? (ws.map (·.2)) d.kinds = none from hk]
    simp

/-- The words of a definition are accepted, and the definition can be finished behind them, if and
only if the body is well nested; and a word behind words that were accepted is itself accepted if
and only if there is a way to go on behind it to such a body. -/
theorem accepts_iff_wellNested (word : Nat) (name : String) (location : Location) :
    (∀ ws, (opened word name location).Accepts ws ↔ WellNested 0 (ws.map (·.2))) ∧
      ∀ ws l w d, build ws (opened word name location) = .ok () d →
        ((∃ d', w.compileStep l d = .ok () d') ↔
          ∃ rest, (opened word name location).Accepts (ws ++ (l, w) :: rest)) := by
  have haccepts (ws : List (Option Location × BodyWord)) :
      (opened word name location).Accepts ws ↔ nextAll? (ws.map (·.2)) [] = some [] :=
    accepts_iff (sound_opened word name location) ws
  refine ⟨fun ws => (haccepts ws).trans nextAll?_eq_nil_iff, fun ws l w d hb => ?_⟩
  have hd : nextAll? (ws.map (·.2)) [] = some d.kinds := by
    have hk := kinds_build ws (opened word name location)
    rwa [hb] at hk
  have hrest (rest : List (Option Location × BodyWord)) :
      (opened word name location).Accepts (ws ++ (l, w) :: rest) ↔
        (w.next? d.kinds).bind (nextAll? (rest.map (·.2))) = some [] := by
    rw [haccepts, List.map_append, nextAll?_append, hd]
    rfl
  have hk := kinds_compileStep l d w
  cases hr : w.compileStep l d with
  | ok _ d' =>
    rw [hr] at hk
    have hw : w.next? d.kinds = some d'.kinds := hk
    obtain ⟨rest, hclose⟩ := ((unfinished_of_nextAll? hd).next hw).exists_closing
    refine iff_of_true ⟨d', rfl⟩ ⟨rest.map fun w => (none, w), (hrest _).2 ?_⟩
    simpa [hw, Function.comp_def] using hclose
  | error c d' =>
    rw [hr] at hk
    have hw : w.next? d.kinds = none := hk
    refine iff_of_false (by simp) ?_
    rintro ⟨rest, hr⟩
    rw [hrest, hw] at hr
    cases hr

/-- Behind `DO BEGIN 1 WHILE IF` there is a way to go on with `LEAVE`, but none with `REPEAT`. -/
theorem accepts_behind_openIf :
    let ws : List (Option Location × BodyWord) := [(none, .control .openDo),
      (none, .control .openBegin), (none, .literal (.int 1)), (none, .control .openWhile),
      (none, .control .openIf)]
    let opened := opened 96 "SEARCH" .unspecified
    ∃ d, build ws opened = .ok () d ∧
      (∃ rest, opened.Accepts (ws ++ (none, .control .leave) :: rest)) ∧
      ¬ ∃ rest, opened.Accepts (ws ++ (none, .control .closeRepeat) :: rest) := by
  intro ws opened
  have h := (accepts_iff_wellNested 96 "SEARCH" .unspecified).2 ws none
  refine ⟨_, rfl, (h (.control .leave) _ rfl).1 ⟨_, rfl⟩, fun hrest => ?_⟩
  obtain ⟨d', hd⟩ := (h (.control .closeRepeat) _ rfl).2 hrest
  cases hd

end Definition

end StackLang
