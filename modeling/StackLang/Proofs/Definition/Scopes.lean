import StackLang.Proofs.Definition.Finished

/-!
# The loops that code goes back in

Without `BEGIN` and `+LOOP` the only way back is that of `LOOP`, which goes to the start of the body
of a loop around it.  So each instruction of a finished body has a scope, the counted loops that
stand around it in the text, and control goes on in the scopes that the text shows, whatever loops
are open when it does.  A loop is named by the instruction that opens it.

* `Op.Heads`: where control may go from an operation, given its scope.
* `Code.Counting`: code that only goes back to step a counted loop.
* `counting_compileStep`: every word but `BEGIN` and `+LOOP` keeps the scopes right.
* `counting_finish`: the code of a definition without them is of that kind.
-/

namespace StackLang

/-- Is the word one that makes endless loops? -/
def ControlWord.isEndless : ControlWord → Bool
  | openBegin | closePlusLoop => true
  | _ => false

/-! ## Code -/

/-- Where control may go from instruction `i`, which has the loops `σ` around it, the innermost
first: forward, in the scope that is right there, or back to the start of the innermost loop. -/
def Op.Heads (scopes : List (List Nat)) (i : Nat) (σ : List Nat) : Op → Prop
  | .branch t => ∀ j, t = some j → i < j ∧ scopes[j]? = some σ
  | .branchIfFalse t =>
    scopes[i + 1]? = some σ ∧ ∀ j, t = some j → i < j ∧ scopes[j]? = some σ
  | .loop (.start _) _ => scopes[i + 1]? = some (i :: σ)
  | .loop (.startUnlessEqual _) t =>
    scopes[i + 1]? = some (i :: σ) ∧ ∀ j, t = some j → i < j ∧ scopes[j]? = some σ
  | .loop .next t =>
    scopes[i + 1]? = some σ.tail ∧ σ ≠ [] ∧ ∀ j, t = some j → scopes[j]? = some σ
  | .loop .nextBy _ => False
  | .loop .leave t => σ ≠ [] ∧ ∀ j, t = some j → i < j ∧ scopes[j]? = some σ.tail
  | .exit => True
  | .callBuiltin _ | .callWord _ | .push _ | .loopIndex _ | .recurse | .loop .unloop _ =>
    scopes[i + 1]? = some σ

/-- The scope in which an operation lands when its branch is patched. -/
def Op.landing? (σ : List Nat) : Op → Option (List Nat)
  | .branch _ | .branchIfFalse _ | .loop (.start _) _ | .loop (.startUnlessEqual _) _ => some σ
  | .loop .leave _ => some σ.tail
  | _ => none

/-- The operation opens a counted loop. -/
def Op.opensLoop : Op → Bool
  | .loop (.start _) _ | .loop (.startUnlessEqual _) _ => true
  | _ => false

namespace Op

variable {op : Op} {scopes : List (List Nat)} {i b : Nat} {σ τ : List Nat}

theorem Heads.append (h : op.Heads scopes i σ) (more : List (List Nat)) :
    op.Heads (scopes ++ more) i σ := by
  have keep {j : Nat} {ρ : List Nat} (hj : scopes[j]? = some ρ) :
      (scopes ++ more)[j]? = some ρ := by
    rw [List.getElem?_append_left (List.getElem?_eq_some_iff.1 hj).1]
    exact hj
  have keepAll {t : Target} {ρ : List Nat} (ht : ∀ j, t = some j → i < j ∧ scopes[j]? = some ρ) :
      ∀ j, t = some j → i < j ∧ (scopes ++ more)[j]? = some ρ :=
    fun j hj => ⟨(ht j hj).1, keep (ht j hj).2⟩
  cases op with
  | branch t => exact keepAll h
  | branchIfFalse t => exact ⟨keep h.1, keepAll h.2⟩
  | exit => trivial
  | callBuiltin _ | callWord _ | push _ | loopIndex _ | recurse => exact keep h
  | loop kind t =>
    cases kind with
    | start _ | unloop => exact keep h
    | startUnlessEqual _ => exact ⟨keep h.1, keepAll h.2⟩
    | next => exact ⟨keep h.1, h.2.1, fun j hj => keep (h.2.2 j hj)⟩
    | nextBy => exact h
    | leave => exact ⟨h.1, keepAll h.2⟩

@[simp] theorem landing?_setTarget (t : Target) (op : Op) :
    (op.setTarget t).landing? σ = op.landing? σ := by
  cases op with
  | loop kind target => cases kind <;> rfl
  | _ => rfl

@[simp] theorem opensLoop_setTarget (t : Target) (op : Op) :
    (op.setTarget t).opensLoop = op.opensLoop := by
  cases op with
  | loop kind target => cases kind <;> rfl
  | _ => rfl

/-- A branch may be patched to go forward to its scope. -/
theorem Heads.setTarget (h : op.Heads scopes i σ) (hl : op.landing? σ = some τ) (hi : i < b)
    (hb : scopes[b]? = some τ) : (op.setTarget (some b)).Heads scopes i σ := by
  have land {ρ : List Nat} (hρ : some ρ = some τ) :
      ∀ j, some b = some j → i < j ∧ scopes[j]? = some ρ := by
    rintro j ⟨⟩
    exact ⟨hi, hb.trans hρ.symm⟩
  cases op with
  | branch t => exact land hl
  | branchIfFalse t => exact ⟨h.1, land hl⟩
  | exit => cases hl
  | callBuiltin _ | callWord _ | push _ | loopIndex _ | recurse => cases hl
  | loop kind t =>
    cases kind with
    | start _ => exact h
    | startUnlessEqual _ => exact ⟨h.1, land hl⟩
    | next | nextBy | unloop => cases hl
    | leave => exact ⟨h.1, land hl⟩

/-- The word that opens a loop may be settled to end it further on. -/
theorem heads_settleLoop (direction : LoopDirection) (hin : scopes[i + 1]? = some (i :: σ))
    (hi : i < b) (hb : scopes[b]? = some σ) (op : Op) :
    (Definition.settleLoop direction b op).Heads scopes i σ := by
  unfold Definition.settleLoop
  split
  · refine ⟨hin, ?_⟩
    rintro j ⟨⟩
    exact ⟨hi, hb⟩
  · exact hin

theorem landing?_settleLoop (direction : LoopDirection) (b : Nat) (h : op.opensLoop = true) :
    (Definition.settleLoop direction b op).landing? σ = op.landing? σ := by
  cases op with
  | loop kind t => cases kind <;> first | rfl | cases h
  | _ => cases h

end Op

namespace Code

/-- Control goes on in the scopes that these are, and a scope names loops that were opened
before. -/
structure Scoped (code : Code) (scopes : List (List Nat)) : Prop where
  heads : ∀ {i : Nat} {x : Instruction} {σ : List Nat}, code[i]? = some x →
    scopes[i]? = some σ → x.op.Heads scopes i σ
  earlier : ∀ {i : Nat} {σ : List Nat}, scopes[i]? = some σ → ∀ m ∈ σ, m < i
  length_le : ∀ {i : Nat} {σ : List Nat}, scopes[i]? = some σ → σ.length ≤ i

/-- The code only goes back to step a counted loop. -/
def Counting (code : Code) : Prop :=
  ∃ scopes, code.Scoped scopes ∧ scopes[0]? = some []

/-- When it is patched, the instruction is to land in the scope `τ`. -/
def Lands (code : Code) (scopes : List (List Nat)) (τ : List Nat) (index : Nat) : Prop :=
  ∃ x σ, code[index]? = some x ∧ scopes[index]? = some σ ∧ x.op.landing? σ = some τ

/-- The instruction opens a loop with `σ` around it. -/
structure Opens (code : Code) (scopes : List (List Nat)) (σ : List Nat) (marker : Nat) : Prop where
  opener : ∃ x, code[marker]? = some x ∧ x.op.opensLoop = true
  outside : scopes[marker]? = some σ
  inside : scopes[marker + 1]? = some (marker :: σ)

/-- What is to be patched still is, and where loops are opened they still are. -/
structure Retains (code code' : Code) (scopes scopes' : List (List Nat)) : Prop where
  lands : ∀ {τ : List Nat} {i : Nat}, code.Lands scopes τ i → Lands code' scopes' τ i
  opens : ∀ {σ : List Nat} {i : Nat}, code.Opens scopes σ i → Opens code' scopes' σ i

variable {code code' code'' : Code} {scopes scopes' scopes'' : List (List Nat)} {σ τ : List Nat}
  {b : Nat}

theorem Retains.trans (h : Retains code code' scopes scopes')
    (h' : Retains code' code'' scopes' scopes'') : Retains code code'' scopes scopes'' :=
  ⟨fun hl => h'.lands (h.lands hl), fun ho => h'.opens (h.opens ho)⟩

theorem scoped_nil : Scoped #[] [[]] := by
  have only {i : Nat} {σ : List Nat} (hi : [([] : List Nat)][i]? = some σ) : σ = [] := by
    cases i with
    | zero => exact (Option.some.inj hi).symm
    | succ i => cases hi
  exact ⟨fun hx => by simp at hx, fun hi m hm => by simp [only hi] at hm,
    fun hi => by simp [only hi]⟩

theorem counting_nil : Counting #[] :=
  ⟨[[]], scoped_nil, rfl⟩

/-- A scope is one of those before the last, or the last. -/
theorem scope_of_concat {i : Nat} (h : (scopes ++ [τ])[i]? = some σ) :
    scopes[i]? = some σ ∨ i = scopes.length ∧ σ = τ := by
  by_cases hi : i < scopes.length
  · rw [List.getElem?_append_left hi] at h
    exact .inl h
  · obtain ⟨hlt, -⟩ := List.getElem?_eq_some_iff.1 h
    obtain rfl : i = scopes.length := by
      simp at hlt
      omega
    rw [List.getElem?_concat_length] at h
    exact .inr ⟨rfl, (Option.some.inj h).symm⟩

/-- An instruction may be appended if it heads for the right scopes. -/
theorem Scoped.push (h : code.Scoped scopes) (l : Option Location) {op : Op}
    (hlen : scopes.length = Array.size code + 1) (hσ : scopes[Array.size code]? = some σ)
    (hτ : ∀ m ∈ τ, m ≤ Array.size code) (hle : τ.length ≤ Array.size code + 1)
    (hop : op.Heads (scopes ++ [τ]) (Array.size code) σ) :
    Scoped (Array.push code ⟨l, op⟩) (scopes ++ [τ]) where
  heads := by
    intro i x ρ hx hi
    rw [Array.getElem?_push] at hx
    split at hx
    · rename_i hsize
      cases hx
      rw [hsize, List.getElem?_append_left (by omega), hσ] at hi
      cases hi
      exact hsize ▸ hop
    · have hlt := (Array.getElem?_eq_some_iff.1 hx).1
      rw [List.getElem?_append_left (by omega)] at hi
      exact (h.heads hx hi).append [τ]
  earlier := by
    intro i ρ hi m hm
    rcases scope_of_concat hi with hi | ⟨rfl, rfl⟩
    · exact h.earlier hi m hm
    · have := hτ m hm
      omega
  length_le := by
    intro i ρ hi
    rcases scope_of_concat hi with hi | ⟨rfl, rfl⟩
    · exact h.length_le hi
    · omega

theorem retains_push (code : Code) (scopes : List (List Nat)) (x : Instruction)
    (more : List (List Nat)) : Retains code (Array.push code x) scopes (scopes ++ more) := by
  have keepCode {i : Nat} {y : Instruction} (hy : code[i]? = some y) :
      (Array.push code x)[i]? = some y := by
    have hi := (Array.getElem?_eq_some_iff.1 hy).1
    rw [Array.getElem?_push, if_neg (by omega)]
    exact hy
  have keep {i : Nat} {ρ : List Nat} (hi : scopes[i]? = some ρ) :
      (scopes ++ more)[i]? = some ρ := by
    rw [List.getElem?_append_left (List.getElem?_eq_some_iff.1 hi).1]
    exact hi
  constructor
  · rintro τ i ⟨y, σ, hy, hi, hl⟩
    exact ⟨y, σ, keepCode hy, keep hi, hl⟩
  · rintro σ i ⟨⟨y, hy, ho⟩, hout, hin⟩
    exact ⟨⟨y, keepCode hy, ho⟩, keep hout, keep hin⟩

/-! ## Patching branches -/

theorem retains_retarget (code : Code) (scopes : List (List Nat)) (b index : Nat) :
    Retains code (code.retarget b index) scopes scopes := by
  have keep {i : Nat} {x : Instruction} (hx : code[i]? = some x) :
      ∃ y, (code.retarget b index)[i]? = some y ∧
        ((y.op = x.op) ∨ y.op = x.op.setTarget (some b)) := by
    unfold Code.retarget
    rw [Array.getElem?_modify, hx]
    split
    · exact ⟨_, rfl, .inr rfl⟩
    · exact ⟨x, rfl, .inl rfl⟩
  constructor
  · rintro τ i ⟨x, σ, hx, hi, hl⟩
    obtain ⟨y, hy, he | he⟩ := keep hx
    · exact ⟨y, σ, hy, hi, he ▸ hl⟩
    · exact ⟨y, σ, hy, hi, by rw [he, Op.landing?_setTarget, hl]⟩
  · rintro σ i ⟨⟨x, hx, ho⟩, hout, hin⟩
    obtain ⟨y, hy, he | he⟩ := keep hx
    · exact ⟨⟨y, hy, he ▸ ho⟩, hout, hin⟩
    · exact ⟨⟨y, hy, by rw [he, Op.opensLoop_setTarget, ho]⟩, hout, hin⟩

/-- A branch may be patched to go forward to where it is to land. -/
theorem Scoped.retarget {index : Nat} (h : code.Scoped scopes) (hl : code.Lands scopes τ index)
    (hi : index < b) (hb : scopes[b]? = some τ) : Scoped (code.retarget b index) scopes where
  heads := by
    intro i x ρ hx hρ
    unfold Code.retarget at hx
    rw [Array.getElem?_modify] at hx
    split at hx
    · rename_i hindex
      obtain ⟨y, hy, rfl⟩ := Option.map_eq_some_iff.1 hx
      obtain ⟨z, σ, hz, hσ, hland⟩ := hl
      subst hindex
      rw [hy] at hz
      rw [hρ] at hσ
      cases hz
      cases hσ
      exact (h.heads hy hρ).setTarget hland hi hb
    · exact h.heads hx hρ
  earlier := h.earlier
  length_le := h.length_le

theorem Lands.lt {index : Nat} (h : code.Lands scopes τ index) : index < Array.size code := by
  obtain ⟨x, σ, hx, -⟩ := h
  exact (Array.getElem?_eq_some_iff.1 hx).1

theorem Scoped.retargetAll {indices : List Nat} (h : code.Scoped scopes)
    (hl : ∀ i ∈ indices, code.Lands scopes τ i ∧ i < b) (hb : scopes[b]? = some τ) :
    Scoped (code.retargetAll b indices) scopes ∧
      Retains code (code.retargetAll b indices) scopes scopes := by
  induction indices generalizing code with
  | nil => exact ⟨h, id, id⟩
  | cons index indices ih =>
    have hk := retains_retarget code scopes b index
    obtain ⟨hindex, hlt⟩ := hl index List.mem_cons_self
    obtain ⟨hs, hk'⟩ := ih (h.retarget hindex hlt hb) fun i hm => by
      obtain ⟨hi, hlt⟩ := hl i (List.mem_cons_of_mem _ hm)
      exact ⟨hk.lands hi, hlt⟩
    exact ⟨hs, hk.trans hk'⟩

/-! ## Settling a loop -/

variable {direction : LoopDirection} {marker : Nat}

theorem retains_settle (direction : LoopDirection) (b : Nat) (hm : code.Opens scopes σ marker) :
    Retains code (code.settle direction b marker) scopes scopes := by
  obtain ⟨x, hx, ho⟩ := hm.opener
  have keep {i : Nat} {y : Instruction} (hy : code[i]? = some y) :
      ∃ z, (code.settle direction b marker)[i]? = some z ∧ (z.op = y.op ∨
        y.op.opensLoop = true ∧ z.op = Definition.settleLoop direction b y.op) := by
    unfold Code.settle
    rw [Array.getElem?_modify, hy]
    split
    · rename_i hi
      subst hi
      rw [hx] at hy
      cases hy
      exact ⟨_, rfl, .inr ⟨ho, rfl⟩⟩
    · exact ⟨y, rfl, .inl rfl⟩
  constructor
  · rintro τ i ⟨y, ρ, hy, hi, hl⟩
    obtain ⟨z, hz, he | ⟨ho, he⟩⟩ := keep hy
    · exact ⟨z, ρ, hz, hi, he ▸ hl⟩
    · exact ⟨z, ρ, hz, hi, by rw [he, Op.landing?_settleLoop direction b ho, hl]⟩
  · rintro ρ i ⟨⟨y, hy, hopens⟩, hout, hin⟩
    obtain ⟨z, hz, he | ⟨-, he⟩⟩ := keep hy
    · exact ⟨⟨z, hz, he ▸ hopens⟩, hout, hin⟩
    · refine ⟨⟨z, hz, ?_⟩, hout, hin⟩
      rw [he]
      unfold Definition.settleLoop
      split <;> rfl

/-- The end of a loop may be settled further on, in the scope around the loop. -/
theorem Scoped.settle (h : code.Scoped scopes) (hm : code.Opens scopes σ marker)
    (hi : marker < b) (hb : scopes[b]? = some σ) :
    Scoped (code.settle direction b marker) scopes where
  heads := by
    intro i x ρ hx hρ
    unfold Code.settle at hx
    rw [Array.getElem?_modify] at hx
    split at hx
    · rename_i hmarker
      obtain ⟨y, -, rfl⟩ := Option.map_eq_some_iff.1 hx
      subst hmarker
      rw [hm.outside] at hρ
      cases hρ
      exact Op.heads_settleLoop direction hm.inside hi hb y.op
    · exact h.heads hx hρ
  earlier := h.earlier
  length_le := h.length_le

theorem Opens.lt (h : code.Opens scopes σ marker) : marker < Array.size code := by
  obtain ⟨x, hx, -⟩ := h.opener
  exact (Array.getElem?_eq_some_iff.1 hx).1

end Code

/-! ## Definitions -/

/-- The loop that the structure is, by the word that opened it. -/
def Construct.marker? : Construct → Option Nat
  | counted marker _ => some marker
  | _ => none

/-- The open structures rely on where their branches are to land, and none of them is that of a
`BEGIN`. -/
def Construct.ScopedAll (code : Code) (scopes : List (List Nat)) : List Construct → Prop
  | [] => True
  | .ifArm branch :: rest | .elseArm branch :: rest =>
    code.Lands scopes (rest.filterMap marker?) branch ∧ ScopedAll code scopes rest
  | .counted marker leaves :: rest =>
    code.Opens scopes (rest.filterMap marker?) marker ∧
      (∀ i ∈ leaves, code.Lands scopes (rest.filterMap marker?) i) ∧ ScopedAll code scopes rest
  | .loopHead _ :: _ | .whileExit _ :: _ => False

theorem Construct.ScopedAll.retain {code code' : Code} {scopes scopes' : List (List Nat)}
    {control : List Construct} (h : ScopedAll code scopes control)
    (hk : code.Retains code' scopes scopes') : ScopedAll code' scopes' control := by
  induction control with
  | nil => trivial
  | cons c rest ih =>
    cases c with
    | ifArm branch | elseArm branch => exact ⟨hk.lands h.1, ih h.2⟩
    | counted marker leaves =>
      exact ⟨hk.opens h.1, fun i hi => hk.lands (h.2.1 i hi), ih h.2.2⟩
    | loopHead start | whileExit branch => exact h

/-- A `LEAVE` is to land behind the innermost counted loop. -/
theorem Construct.ScopedAll.addLeave {code : Code} {scopes : List (List Nat)} {leave : Nat}
    {control control' : List Construct} (ha : Definition.addLeave? leave control = some control')
    (h : ScopedAll code scopes control)
    (hl : code.Lands scopes (control.filterMap marker?).tail leave) :
    ScopedAll code scopes control' ∧
      control'.filterMap marker? = control.filterMap marker? ∧
        control.filterMap marker? ≠ [] := by
  fun_induction Definition.addLeave? leave control generalizing control' with
  | case1 => cases ha
  | case2 marker leaves rest =>
    cases ha
    obtain ⟨hopen, hleaves, hrest⟩ := h
    refine ⟨⟨hopen, fun i hi => ?_, hrest⟩, rfl, List.cons_ne_nil _ _⟩
    rcases List.mem_cons.1 hi with rfl | hi
    · exact hl
    · exact hleaves i hi
  | case3 c rest hne ih =>
    obtain ⟨rest', hr, rfl⟩ := Option.map_eq_some_iff.1 ha
    cases c with
    | counted marker leaves => exact (hne marker leaves rfl).elim
    | ifArm branch | elseArm branch =>
      obtain ⟨hall, hmarkers, hn⟩ := ih hr h.2 hl
      exact ⟨⟨hmarkers ▸ h.1, hall⟩, hmarkers, hn⟩
    | loopHead start | whileExit branch => exact h.elim

namespace Definition

/-- The counted loops that are open, the innermost first. -/
def markers (d : Definition) : List Nat :=
  d.control.filterMap Construct.marker?

/-- The scopes of the instructions so far are right, and the last one is that of the next
instruction. -/
structure Scoped (scopes : List (List Nat)) (d : Definition) : Prop where
  length : scopes.length = d.code.size + 1
  start : scopes[0]? = some []
  here : scopes[d.code.size]? = some d.markers
  code : Code.Scoped d.code scopes
  control : Construct.ScopedAll d.code scopes d.control

/-- A definition without `BEGIN` and `+LOOP` so far. -/
def Counting (d : Definition) : Prop :=
  ∃ scopes, d.Scoped scopes

theorem counting_opened (word : Nat) (name : String) (location : Location) :
    (opened word name location).Counting :=
  ⟨[[]], rfl, rfl, rfl, Code.scoped_nil, trivial⟩

theorem Counting.record {d : Definition} (h : d.Counting) (token : String) :
    (d.record token).Counting := by
  obtain ⟨scopes, h⟩ := h
  exact ⟨scopes, h.length, h.start, h.here, h.code, h.control⟩

namespace Scoped

variable {scopes : List (List Nat)} {d : Definition} (h : d.Scoped scopes) {l : Option Location}
include h

theorem next (τ : List Nat) : (scopes ++ [τ])[d.code.size + 1]? = some τ := by
  rw [← h.length]
  exact List.getElem?_concat_length

theorem marker_lt {m : Nat} (hm : m ∈ d.markers) : m < d.code.size :=
  h.code.earlier h.here m hm

/-- Appending an instruction, and opening or closing structures. -/
theorem push {op : Op} {control : List Construct} {τ : List Nat}
    (hτ : control.filterMap Construct.marker? = τ) (hm : ∀ m ∈ τ, m ≤ d.code.size)
    (hle : τ.length ≤ d.code.size + 1) (hop : op.Heads (scopes ++ [τ]) d.code.size d.markers)
    (hc : Construct.ScopedAll (d.code.push ⟨l, op⟩) (scopes ++ [τ]) control) :
    Scoped (scopes ++ [τ]) { d with code := d.code.push ⟨l, op⟩, control } := by
  refine ⟨?_, ?_, ?_, h.code.push l h.length h.here hm hle hop, hc⟩
  · simp [h.length]
  · rw [List.getElem?_append_left (by rw [h.length]; omega)]
    exact h.start
  · show (scopes ++ [τ])[(d.code.push ⟨l, op⟩).size]? = some (control.filterMap _)
    rw [Array.size_push, hτ]
    exact h.next τ

/-- Appending an instruction, with the same loops open behind it. -/
theorem push_same {op : Op} {control : List Construct}
    (hτ : control.filterMap Construct.marker? = d.markers)
    (hop : op.Heads (scopes ++ [d.markers]) d.code.size d.markers)
    (hc : Construct.ScopedAll (d.code.push ⟨l, op⟩) (scopes ++ [d.markers]) control) :
    Scoped (scopes ++ [d.markers]) { d with code := d.code.push ⟨l, op⟩, control } :=
  h.push hτ (fun _ hm => Nat.le_of_lt (h.marker_lt hm))
    (Nat.le_succ_of_le (h.code.length_le h.here)) hop hc

/-- Appending an instruction behind which control goes on. -/
theorem emit {op : Op} (hop : op.Heads (scopes ++ [d.markers]) d.code.size d.markers) :
    Counting { d with code := d.code.push ⟨l, op⟩ } :=
  ⟨_, h.push_same rfl hop (h.control.retain (Code.retains_push ..))⟩

/-- The instruction that is appended is to land in the present scope. -/
theorem lands_here {op : Op} {τ : List Nat} (τ' : List Nat)
    (hop : op.landing? d.markers = some τ) :
    Code.Lands (d.code.push ⟨l, op⟩) (scopes ++ [τ']) τ d.code.size := by
  refine ⟨⟨l, op⟩, d.markers, by simp, ?_, hop⟩
  rw [List.getElem?_append_left (by rw [h.length]; omega)]
  exact h.here

/-- Patching a branch of the code so far, to land behind it. -/
theorem retarget {index : Nat} (hl : Code.Lands d.code scopes d.markers index) :
    Scoped scopes { d with code := Code.retarget d.code d.code.size index } where
  length := by simpa using h.length
  start := h.start
  here := (congrArg (scopes[·]?) (Code.size_retarget ..)).trans h.here
  code := h.code.retarget hl hl.lt h.here
  control := h.control.retain (Code.retains_retarget ..)

/-- Closing a structure that is no counted loop. -/
theorem pop {c : Construct} {rest : List Construct} (hc : d.control = c :: rest)
    (hmarker : c.marker? = none) (hrest : Construct.ScopedAll d.code scopes rest) :
    rest.filterMap Construct.marker? = d.markers ∧ Scoped scopes { d with control := rest } := by
  have hm : d.markers = rest.filterMap Construct.marker? := by
    rw [markers, hc, List.filterMap_cons, hmarker]
  exact ⟨hm.symm, h.length, h.start, h.here.trans (congrArg some hm), h.code, hrest⟩

/-- The definition cannot close what no `BEGIN` has opened. -/
theorem not_begin {c : Construct} {rest : List Construct} (hc : d.control = c :: rest) :
    c.start? = none ∧ c.whileBranch? = none := by
  have hall := h.control
  rw [hc] at hall
  cases c with
  | loopHead start | whileExit branch => exact hall.elim
  | _ => exact ⟨rfl, rfl⟩

end Scoped

/-! ## The words of a body -/

section

variable {d d' : Definition} (h : d.Counting) (l : Option Location)
include h

theorem counting_compileIf (hok : compileIf l d = .ok () d') : d'.Counting := by
  obtain ⟨scopes, h⟩ := h
  rw [compileIf_eq] at hok
  cases hok
  refine ⟨_, h.push_same rfl ⟨h.next _, nofun⟩ ⟨h.lands_here _ rfl, ?_⟩⟩
  exact h.control.retain (Code.retains_push ..)

theorem counting_compileElse (hok : compileElse l d = .ok () d') : d'.Counting := by
  obtain ⟨scopes, h⟩ := h
  rw [compileElse_eq] at hok
  split at hok
  · rename_i branch rest hc
    cases hok
    have hall := h.control
    rw [hc] at hall
    obtain ⟨hm, hd⟩ := h.pop hc rfl hall.2
    have hkeep := Code.retains_push d.code scopes ⟨l, .branch none⟩ [d.markers]
    have hpush : Scoped _ { d with
        code := d.code.push ⟨l, .branch none⟩
        control := .elseArm d.code.size :: rest } :=
      hd.push_same rfl (fun j hj => by cases hj)
        ⟨hd.lands_here _ rfl, hd.control.retain (Code.retains_push ..)⟩
    have hlands := hkeep.lands hall.1
    rw [← hm] at hlands
    have hpatch := hpush.retarget hlands
    rw [Array.size_push] at hpatch
    exact ⟨_, hpatch⟩
  · cases hok
  · cases hok

theorem counting_compileThen (hok : compileThen d = .ok () d') : d'.Counting := by
  obtain ⟨scopes, h⟩ := h
  rw [compileThen_eq] at hok
  have close {branch : Nat} {c : Construct} {rest : List Construct} (hc : d.control = c :: rest)
      (hmarker : c.marker? = none)
      (hall : Code.Lands d.code scopes (rest.filterMap Construct.marker?) branch ∧
        Construct.ScopedAll d.code scopes rest) :
      Counting { d with code := Code.retarget d.code d.code.size branch, control := rest } :=
    ⟨scopes, (h.pop hc hmarker hall.2).2.retarget hall.1⟩
  have hall := h.control
  split at hok
  · rename_i branch rest hc
    cases hok
    rw [hc] at hall
    exact close hc rfl hall
  · rename_i branch rest hc
    cases hok
    rw [hc] at hall
    exact close hc rfl hall
  · cases hok
  · cases hok

theorem counting_compileDo (query : Bool) (hok : compileDo l query d = .ok () d') :
    d'.Counting := by
  obtain ⟨scopes, h⟩ := h
  rw [compileDo_eq] at hok
  cases hok
  have hle := h.code.length_le h.here
  refine ⟨_, h.push (τ := d.code.size :: d.markers) rfl (fun m hm => ?_) (Nat.succ_le_succ hle) ?_
    ⟨⟨⟨_, Array.getElem?_push_size, ?_⟩, ?_, h.next _⟩, fun _ h => (by cases h),
      h.control.retain (Code.retains_push ..)⟩⟩
  · rcases List.mem_cons.1 hm with rfl | hm
    · exact Nat.le_refl _
    · exact Nat.le_of_lt (h.marker_lt hm)
  · cases query with
    | false => exact h.next _
    | true => exact ⟨h.next _, nofun⟩
  · cases query <;> rfl
  · rw [List.getElem?_append_left (by rw [h.length]; omega)]
    exact h.here

/-- `LOOP` goes back to the start of the body, and its own scope is that of the body. -/
theorem counting_compileLoop (hok : compileLoop l false d = .ok () d') : d'.Counting := by
  obtain ⟨scopes, h⟩ := h
  rw [compileLoop_eq] at hok
  split at hok
  · rename_i marker leaves rest hc
    cases hok
    have hall := h.control
    rw [hc] at hall
    obtain ⟨hopen, hleaves, hrest⟩ := hall
    have hm : d.markers = marker :: rest.filterMap Construct.marker? := by
      rw [markers, hc]
      rfl
    generalize hτ : rest.filterMap Construct.marker? = τ at hopen hleaves hm
    have hlt := hopen.lt
    have hkeep := Code.retains_push d.code scopes
      ⟨l, .loop .next (some (marker + 1))⟩ [τ]
    have hsub : ∀ m ∈ τ, m ≤ d.code.size :=
      fun m hmem => Nat.le_of_lt (h.marker_lt (hm ▸ List.mem_cons_of_mem _ hmem))
    have hle := h.code.length_le h.here
    rw [hm] at hle
    have hheads : Op.Heads (scopes ++ [τ]) d.code.size d.markers
        (.loop .next (some (marker + 1))) := by
      rw [hm]
      refine ⟨h.next τ, List.cons_ne_nil _ _, ?_⟩
      rintro j ⟨⟩
      exact (hkeep.opens hopen).inside
    have hpush : Scoped (scopes ++ [τ]) { d with
        code := d.code.push ⟨l, .loop .next (some (marker + 1))⟩
        control := rest } :=
      h.push hτ hsub (by simp only [List.length_cons] at hle; omega) hheads (hrest.retain hkeep)
    have hnext := h.next τ
    have hsettle := Code.retains_settle .ascending (d.code.size + 1) (hkeep.opens hopen)
    have hsettled : Code.Scoped (Code.settle _ .ascending (d.code.size + 1) marker) _ :=
      hpush.code.settle (hkeep.opens hopen) (by omega) hnext
    obtain ⟨hcode, hpatch⟩ := hsettled.retargetAll (b := d.code.size + 1) (τ := τ)
      (fun i hi => ⟨hsettle.lands (hkeep.lands (hleaves i hi)), by
        have := (hleaves i hi).lt
        omega⟩) hnext
    refine ⟨_, ?_, hpush.start, ?_, hcode, hpush.control.retain (hsettle.trans hpatch)⟩
    · have := hpush.length
      simpa [Code.settle] using this
    · have := hpush.here
      simpa [Code.settle, markers] using this
  · cases hok
  · cases hok

theorem counting_compileLeave (hok : compileLeave l d = .ok () d') : d'.Counting := by
  obtain ⟨scopes, h⟩ := h
  rw [compileLeave_eq] at hok
  split at hok
  · rename_i control ha
    cases hok
    -- The `LEAVE` is appended before its loop is told to patch it.
    have hkeep := h.control.retain
      (Code.retains_push d.code scopes ⟨l, .loop .leave none⟩ [d.markers])
    obtain ⟨hall, hmarkers, hn⟩ := hkeep.addLeave ha (h.lands_here _ rfl)
    exact ⟨_, h.push_same hmarkers ⟨hn, nofun⟩ hall⟩
  · cases hok

theorem counting_compileUnloop (hok : compileUnloop l d = .ok () d') : d'.Counting := by
  obtain ⟨scopes, h⟩ := h
  rw [compileUnloop_eq] at hok
  split at hok
  · cases hok
  · cases hok
    exact h.emit (h.next _)

theorem counting_compileLoopIndex {word : String} {depth : Nat}
    (hok : compileLoopIndex l word depth d = .ok () d') : d'.Counting := by
  obtain ⟨scopes, h⟩ := h
  rw [compileLoopIndex_eq] at hok
  split at hok
  · cases hok
  · cases hok
    exact h.emit (h.next _)

/-- A word that belongs to a `BEGIN` is refused where there is none. -/
theorem counting_closeBegin {w : ControlWord}
    (hw : w = .closeUntil ∨ w = .closeAgain ∨ w = .openWhile ∨ w = .closeRepeat)
    (hok : w.compileStep l d = .ok () d') : False := by
  obtain ⟨scopes, h⟩ := h
  rcases hw with rfl | rfl | rfl | rfl
  · rw [ControlWord.compileStep, compileUntil_eq] at hok
    split at hok
    · rename_i hc
      cases (h.not_begin hc).1
    all_goals cases hok
  · rw [ControlWord.compileStep, compileAgain_eq] at hok
    split at hok
    · rename_i hc
      cases (h.not_begin hc).1
    all_goals cases hok
  · rw [ControlWord.compileStep, compileWhile_eq] at hok
    split at hok
    · rename_i hc
      cases (h.not_begin hc).1
    all_goals cases hok
  · rw [ControlWord.compileStep, compileRepeat_eq] at hok
    split at hok
    · rename_i hc
      cases (h.not_begin hc).2
    all_goals cases hok

/-- Every control word but `BEGIN` and `+LOOP` keeps the code from going back in other ways. -/
theorem counting_compileStep {w : ControlWord} (hw : w.isEndless = false)
    (hok : w.compileStep l d = .ok () d') : d'.Counting := by
  cases w with
  | openIf => exact counting_compileIf h l hok
  | openElse => exact counting_compileElse h l hok
  | closeThen => exact counting_compileThen h hok
  | openBegin | closePlusLoop => cases hw
  | closeUntil => exact (counting_closeBegin h l (.inl rfl) hok).elim
  | closeAgain => exact (counting_closeBegin h l (.inr (.inl rfl)) hok).elim
  | openWhile => exact (counting_closeBegin h l (.inr (.inr (.inl rfl))) hok).elim
  | closeRepeat => exact (counting_closeBegin h l (.inr (.inr (.inr rfl))) hok).elim
  | openDo => exact counting_compileDo h l false hok
  | openQueryDo => exact counting_compileDo h l true hok
  | closeLoop => exact counting_compileLoop h l hok
  | index | outerIndex => exact counting_compileLoopIndex h l hok
  | leave => exact counting_compileLeave h l hok
  | unloop => exact counting_compileUnloop h l hok
  | exit =>
    cases hok
    obtain ⟨scopes, h⟩ := h
    exact h.emit trivial
  | recurse =>
    cases hok
    obtain ⟨scopes, h⟩ := h
    exact h.emit (h.next _)

/-- The code that is handed over ends with an exit, and the definition is without code then. -/
theorem counting_finish {r : Except Breach Code} (hok : finish d = .ok r d') :
    d'.Counting ∧ ∀ code, r = .ok code → code.Counting := by
  obtain ⟨scopes, h⟩ := h
  rw [finish_eq] at hok
  split at hok
  · cases hok
  · rename_i hc
    split at hok
    · cases hok
      exact ⟨h.emit trivial, fun code hcode => by cases hcode⟩
    · cases hok
      have hpush : Scoped _ { d with
          code := d.code.push ⟨none, .exit⟩
          control := d.control } :=
        h.push_same rfl trivial (h.control.retain (Code.retains_push ..))
      refine ⟨⟨[[]], rfl, rfl, ?_, Code.scoped_nil, ?_⟩, ?_⟩
      · simp [markers, hc]
      · rw [hc]
        trivial
      · rintro code ⟨⟩
        exact ⟨_, hpush.code, hpush.start⟩

end

end Definition

end StackLang
