import StackLang.Proofs.Saved.Bodies

/-!
# The literals of a body

A literal that is compiled stays where it is, whatever is compiled behind it: branches are patched
and loops are settled, but the instructions that push values are not touched.

* `Code.KeepsLiterals`: code that goes on with the same literals.
* `keepsLiterals_build`: building a body further keeps the literals that it has.
* `exists_literal_of_assemble?`, `exists_literal_of_like`: the numbers among the lexemes of a body
  are literals of its code.
-/

namespace StackLang

def Op.literal? : Op → Option Value
  | push v => some v
  | _ => none

@[simp] theorem Op.literal?_setTarget (t : Target) (op : Op) :
    (op.setTarget t).literal? = op.literal? := by
  cases op <;> rfl

@[simp] theorem Definition.literal?_settleLoop (direction : LoopDirection) (behind : Nat)
    (op : Op) : (settleLoop direction behind op).literal? = none := by
  unfold settleLoop
  split <;> rfl

namespace Code

/-- The value that the instruction at an index pushes. -/
def literal? (code : Code) (i : Nat) : Option Value :=
  code[i]?.bind (·.op.literal?)

/-- The code is the other one, with more behind it and perhaps other targets. -/
structure KeepsLiterals (code code' : Code) : Prop where
  size : Array.size code ≤ Array.size code'
  literal : ∀ i, i < Array.size code → code'.literal? i = code.literal? i

variable {code code' : Code}

theorem literal?_push (code : Code) (l : Option Location) (op : Op) (i : Nat) :
    literal? (code.push ⟨l, op⟩) i =
      if i = Array.size code then op.literal? else code.literal? i := by
  unfold literal?
  rw [Array.getElem?_push]
  split <;> rfl

theorem literal?_modify (code : Code) (index : Nat) (f : Op → Op) (i : Nat) :
    literal? (code.modify index fun x => { x with op := f x.op }) i =
      if index = i then code[i]?.bind (f ·.op |>.literal?) else code.literal? i := by
  unfold literal?
  rw [Array.getElem?_modify]
  split
  · cases code[i]? <;> rfl
  · rfl

@[simp] theorem literal?_unplaced (code : Code) (i : Nat) :
    code.unplaced.literal? i = code.literal? i := by
  unfold literal? unplaced
  rw [Array.getElem?_map]
  cases code[i]? <;> rfl

namespace KeepsLiterals

theorem refl (code : Code) : KeepsLiterals code code :=
  ⟨Nat.le_refl _, fun _ _ => rfl⟩

theorem trans {code'' : Code} (h : KeepsLiterals code code') (h' : KeepsLiterals code' code'') :
    KeepsLiterals code code'' :=
  ⟨Nat.le_trans h.size h'.size, fun i hi =>
    (h'.literal i (Nat.lt_of_lt_of_le hi h.size)).trans (h.literal i hi)⟩

theorem push (code : Code) (l : Option Location) (op : Op) :
    KeepsLiterals code (code.push ⟨l, op⟩) := by
  refine ⟨by simp, fun i hi => ?_⟩
  rw [literal?_push, if_neg (Nat.ne_of_lt hi)]

theorem retarget (h : KeepsLiterals code code') (target index : Nat) :
    KeepsLiterals code (code'.retarget target index) := by
  refine h.trans ⟨by simp, fun i _ => ?_⟩
  rw [Code.retarget, literal?_modify]
  simp [literal?]

theorem retargetAll (h : KeepsLiterals code code') (target : Nat) (indices : List Nat) :
    KeepsLiterals code (code'.retargetAll target indices) := by
  induction indices generalizing code' with
  | nil => exact h
  | cons index indices ih => exact ih (h.retarget target index)

/-- What opens a loop is no literal. -/
theorem settle (h : KeepsLiterals code code') (direction : LoopDirection) (behind : Nat)
    {marker : Nat} (hm : code'.literal? marker = none) :
    KeepsLiterals code (code'.settle direction behind marker) := by
  refine h.trans ⟨by simp [Code.settle], fun i _ => ?_⟩
  rw [Code.settle, literal?_modify]
  split
  · rename_i hi
    rw [← hi, hm]
    simp
  · rfl

end KeepsLiterals

end Code

namespace Definition

/-- The instructions that open the loops which are not closed yet are no literals. -/
def LoopsApart (d : Definition) : Prop :=
  ∀ marker leaves, .counted marker leaves ∈ d.control →
    marker < d.code.size ∧ d.code.literal? marker = none

theorem exists_of_addLeave? {leave marker : Nat} {control control' : List Construct}
    {leaves : List Nat} (ha : addLeave? leave control = some control')
    (h : .counted marker leaves ∈ control') : ∃ leaves', .counted marker leaves' ∈ control := by
  fun_induction addLeave? leave control generalizing control' with
  | case1 => cases ha
  | case2 marker' leaves' rest =>
    cases ha
    rcases List.mem_cons.1 h with h | h
    · cases h
      exact ⟨leaves', List.mem_cons_self⟩
    · exact ⟨leaves, List.mem_cons_of_mem _ h⟩
  | case3 c rest hne ih =>
    obtain ⟨rest', hr, rfl⟩ := Option.map_eq_some_iff.1 ha
    rcases List.mem_cons.1 h with rfl | h
    · exact ⟨leaves, List.mem_cons_self⟩
    · obtain ⟨leaves', h⟩ := ih hr h
      exact ⟨leaves', List.mem_cons_of_mem _ h⟩

/-- The definition goes on with the same literals. -/
structure KeepsLiterals (d d' : Definition) : Prop where
  code : d.code.KeepsLiterals d'.code
  apart : d'.LoopsApart

variable {d : Definition} (l : Option Location)

/-- Loops are closed, and others than counted ones are opened. -/
theorem LoopsApart.keeps (h : d.LoopsApart) {code : Code} {control : List Construct}
    (hcode : d.code.KeepsLiterals code)
    (hcontrol : ∀ marker leaves, .counted marker leaves ∈ control →
      ∃ leaves', .counted marker leaves' ∈ d.control) :
    d.KeepsLiterals { d with code, control } := by
  refine ⟨hcode, fun marker leaves hm => ?_⟩
  obtain ⟨leaves', hm⟩ := hcontrol marker leaves hm
  obtain ⟨hlt, hnone⟩ := h marker leaves' hm
  exact ⟨Nat.lt_of_lt_of_le hlt hcode.size, (hcode.literal marker hlt).trans hnone⟩

theorem keepsLiterals_controlStep (h : d.LoopsApart) (w : ControlWord) :
    After d.KeepsLiterals (w.compileStep l d) := by
  have stays : d.KeepsLiterals d := ⟨.refl _, h⟩
  have emits (op : Op) : d.code.KeepsLiterals (d.code.push ⟨l, op⟩) := .push _ l op
  have closes {c : Construct} {rest : List Construct} (hc : d.control = c :: rest) (marker : Nat)
      (leaves : List Nat) (hm : .counted marker leaves ∈ rest) :
      ∃ leaves', .counted marker leaves' ∈ d.control :=
    ⟨leaves, hc ▸ List.mem_cons_of_mem c hm⟩
  have opens {c : Construct} {control : List Construct} (hcount : c.isCounted = false)
      (hcontrol : ∀ marker leaves, .counted marker leaves ∈ control →
        ∃ leaves', .counted marker leaves' ∈ d.control) (marker : Nat) (leaves : List Nat)
      (hm : .counted marker leaves ∈ c :: control) :
      ∃ leaves', .counted marker leaves' ∈ d.control := by
    rcases List.mem_cons.1 hm with rfl | hm
    · cases hcount
    · exact hcontrol marker leaves hm
  have same (marker : Nat) (leaves : List Nat) (hm : .counted marker leaves ∈ d.control) :
      ∃ leaves', .counted marker leaves' ∈ d.control := ⟨leaves, hm⟩
  cases w with
  | openIf => exact h.keeps (emits _) (opens rfl same)
  | openBegin => exact h.keeps (.refl _) (opens rfl same)
  | exit | recurse => exact h.keeps (emits _) same
  | openElse =>
    simp only [ControlWord.compileStep, compileElse_eq]
    split
    · rename_i hc
      exact h.keeps ((emits _).retarget _ _) (opens rfl (closes hc))
    · exact stays
    · exact stays
  | closeThen =>
    simp only [ControlWord.compileStep, compileThen_eq]
    split
    · rename_i hc
      exact h.keeps ((Code.KeepsLiterals.refl _).retarget _ _) (closes hc)
    · rename_i hc
      exact h.keeps ((Code.KeepsLiterals.refl _).retarget _ _) (closes hc)
    · exact stays
    · exact stays
  | closeUntil | closeAgain =>
    simp only [ControlWord.compileStep, compileUntil_eq, compileAgain_eq]
    split
    · rename_i hc
      exact h.keeps (emits _) (closes hc)
    · exact stays
    · exact stays
  | openWhile =>
    simp only [ControlWord.compileStep, compileWhile_eq]
    split
    · rename_i hc
      exact h.keeps (emits _) (opens rfl (opens rfl (closes hc)))
    · exact stays
    · exact stays
  | closeRepeat =>
    simp only [ControlWord.compileStep, compileRepeat_eq]
    split
    · rename_i rest hc
      refine h.keeps ((emits _).retarget _ _) fun marker leaves hm => ⟨leaves, ?_⟩
      rw [hc]
      exact List.mem_cons_of_mem _ (List.mem_cons_of_mem _ hm)
    · rename_i hc
      exact h.keeps (.refl _) (closes hc)
    · rename_i hc
      exact h.keeps (.refl _) (closes hc)
    · exact stays
    · exact stays
  | openDo | openQueryDo =>
    refine ⟨emits _, fun marker leaves hm => ?_⟩
    rcases List.mem_cons.1 hm with hm | hm
    · cases hm
      exact ⟨by simp, by rw [Code.literal?_push, if_pos rfl]; rfl⟩
    · exact (h.keeps (emits _) same).apart marker leaves hm
  | closeLoop | closePlusLoop =>
    simp only [ControlWord.compileStep, compileLoop_eq]
    split
    · rename_i marker leaves rest hc
      obtain ⟨hlt, hnone⟩ := h marker leaves (hc ▸ List.mem_cons_self)
      refine h.keeps (((emits _).settle _ _ ?_).retargetAll _ _) (closes hc)
      rw [(emits _).literal marker hlt, hnone]
    · exact stays
    · exact stays
  | index | outerIndex | unloop =>
    simp only [ControlWord.compileStep, compileLoopIndex_eq, compileUnloop_eq]
    split
    · exact stays
    · exact h.keeps (emits _) same
  | leave =>
    simp only [ControlWord.compileStep, compileLeave_eq]
    split
    · rename_i ha
      exact h.keeps (emits _) fun marker leaves hm => exists_of_addLeave? ha hm
    · exact stays

theorem keepsLiterals_compileStep (h : d.LoopsApart) (w : BodyWord) :
    After d.KeepsLiterals (w.compileStep l d) := by
  cases w with
  | literal v | call builtin index => exact h.keeps (.push _ l _) fun _ leaves hm => ⟨leaves, hm⟩
  | control w => exact keepsLiterals_controlStep l h w

/-- Building a body further keeps the literals that it has. -/
theorem keepsLiterals_build (h : d.LoopsApart) (ws : List (Option Location × BodyWord)) :
    After d.KeepsLiterals (build ws d) := by
  induction ws generalizing d with
  | nil => exact ⟨.refl _, h⟩
  | cons w ws ih =>
    refine After.andThen (P := d.KeepsLiterals) (keepsLiterals_compileStep w.1 h w.2)
      fun d' hd => ?_
    have hws := ih hd.apart
    cases hr : build ws d' with
    | ok a d'' | error c d'' =>
      rw [hr] at hws
      exact ⟨hd.code.trans hws.code, hws.apart⟩

end Definition

namespace Dictionary

variable {d : Dictionary} {y y' : Definition} {m m' : Bool}

theorem keepsLiterals_extend? {x : Lexeme} (h : y.LoopsApart)
    (hx : d.extend? (y, m) x = some (y', m')) : y.KeepsLiterals y' := by
  obtain ⟨⟨ws, marks⟩, -, hb⟩ := Option.bind_eq_some_iff.1 hx
  have hk := Definition.keepsLiterals_build h (Definition.placed none ws)
  dsimp only at hb
  split at hb
  · rename_i hr
    rw [hr] at hk
    cases hb
    exact hk
  · cases hb

theorem keepsLiterals_assemble? {xs : List Lexeme} (h : y.LoopsApart)
    (hx : d.assemble? xs (y, m) = some (y', m')) : y.KeepsLiterals y' := by
  induction xs generalizing y m with
  | nil =>
    cases hx
    exact ⟨.refl _, h⟩
  | cons x xs ih =>
    rw [assemble?_cons] at hx
    obtain ⟨⟨y₁, m₁⟩, h₁, h₂⟩ := Option.bind_eq_some_iff.1 hx
    have hk := keepsLiterals_extend? h h₁
    have hk' := ih hk.apart h₂
    exact ⟨hk.code.trans hk'.code, hk'.apart⟩

/-- The numbers among the lexemes of a body are literals of its code. -/
theorem exists_literal_of_assemble? {xs : List Lexeme} {n : Number} (hn : .number n ∈ xs)
    (h : y.LoopsApart) (hx : d.assemble? xs (y, m) = some (y', m')) :
    ∃ i, y'.code.literal? i = some (.ofNumber n) := by
  obtain ⟨before, after, rfl⟩ := List.append_of_mem hn
  rw [assemble?_append] at hx
  obtain ⟨⟨y₁, m₁⟩, h₁, h₂⟩ := Option.bind_eq_some_iff.1 hx
  rw [assemble?_cons] at h₂
  obtain ⟨⟨y₂, m₂⟩, h₂, h₃⟩ := Option.bind_eq_some_iff.1 h₂
  have hk₁ := keepsLiterals_assemble? h h₁
  have hk₃ := keepsLiterals_assemble? (keepsLiterals_extend? hk₁.apart h₂).apart h₃
  obtain rfl : { y₁ with code := y₁.code.push ⟨none, .push (.ofNumber n)⟩ } = y₂ := by
    cases h₂
    rfl
  refine ⟨y₁.code.size, ?_⟩
  rw [hk₃.code.literal _ (by simp), Code.literal?_push, if_pos rfl]
  rfl

/-- They are literals of the word that is defined so. -/
theorem exists_literal_of_like {xs : List Lexeme} {n : Number} {e : Entry} {text : String}
    {index : Nat} (hn : .number n ∈ xs) (hy : d.assemble? xs (.bare, false) = some (y, m))
    (he : e.Like (Entry.filled (y.code.push ⟨none, .exit⟩) text (Entry.reserved .unspecified ""))
      index) : ∃ code i, e.body = .compiled code ∧ code.literal? i = some (.ofNumber n) := by
  obtain ⟨i, hi⟩ := exists_literal_of_assemble? hn (fun _ _ hm => by cases hm) hy
  obtain ⟨code, hbody, hcode⟩ := he.compiled rfl rfl
  refine ⟨code, i, hbody, ?_⟩
  rw [← Code.literal?_unplaced, hcode, Code.literal?_unplaced, Code.literal?_push, if_neg, hi]
  rintro rfl
  simp [Code.literal?] at hi

end Dictionary

end StackLang
