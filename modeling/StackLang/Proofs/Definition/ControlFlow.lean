import StackLang.Proofs.Definition.Edits

/-!
# Where control goes in code

The loops that are open when an instruction runs are known before it runs: each instruction has a
level, the number of loops around it, and control goes from an instruction only to one whose level
is what it leaves open.  A branch without a target goes nowhere, so code may be given levels before
it is complete, and patching a branch only has to mind where that one lands.

* `Op.Goes`: where control may go from an instruction, and how many loops are open there.
* `Code.Leveled`: levels that control agrees with.
* `Code.Awaits`: a branch that is to land at a level, once it has its target.
* `Code.Leveled.push`, `Code.Leveled.retarget`, `Code.Leveled.settle`: what building does to code
  keeps its levels right.
-/

namespace StackLang

/-- Control may go from the operation to instruction `j` with `m` loops open, when the operation is
instruction `i` and `n` loops are open before it. -/
def Op.Goes (i n j m : Nat) : Op → Prop
  | .branch t => t = some j ∧ m = n
  | .branchIfFalse t => (j = i + 1 ∨ t = some j) ∧ m = n
  | .loop (.start _) _ => j = i + 1 ∧ m = n + 1
  | .loop (.startUnlessEqual _) t => j = i + 1 ∧ m = n + 1 ∨ t = some j ∧ m = n
  | .loop .next t | .loop .nextBy t => t = some j ∧ m = n ∨ j = i + 1 ∧ m + 1 = n
  | .loop .leave t => t = some j ∧ m + 1 = n
  | .loop .unloop _ => j = i + 1 ∧ m + 1 = n
  | .exit => False
  | .callBuiltin _ | .callWord _ | .push _ | .loopIndex _ | .recurse => j = i + 1 ∧ m = n

/-- The number of loops that the operation works on. -/
def Op.loopsNeeded : Op → Nat
  | .loopIndex depth => depth + 1
  | .loop .next _ | .loop .nextBy _ | .loop .leave _ | .loop .unloop _ => 1
  | _ => 0

/-- The number of loops that are open where the operation branches to, when `n` are open before
it. -/
def Op.landing (n : Nat) : Op → Nat
  | .loop .leave _ => n - 1
  | _ => n

namespace Op

variable {op : Op} {i n j m : Nat}

/-- Control goes on behind the operation or to its target. -/
theorem Goes.next_or_target (h : op.Goes i n j m) :
    op ≠ .exit ∧ (j = i + 1 ∨ op.target? = some (some j)) := by
  cases op with
  | exit => exact h.elim
  | callBuiltin _ | callWord _ | push _ | loopIndex _ | recurse => exact ⟨nofun, .inl h.1⟩
  | branch t => exact ⟨nofun, .inr (congrArg some h.1)⟩
  | branchIfFalse t => exact ⟨nofun, h.1.imp_right (congrArg some)⟩
  | loop kind t =>
    refine ⟨nofun, ?_⟩
    cases kind with
    | start _ | unloop => exact .inl h.1
    | startUnlessEqual _ => exact h.imp (·.1) fun h => congrArg some h.1
    | next | nextBy => exact h.symm.imp (·.1) fun h => congrArg some h.1
    | leave => exact .inr (congrArg some h.1)

@[simp] theorem landing_setTarget (t : Target) (op : Op) :
    (op.setTarget t).landing n = op.landing n := by
  cases op with
  | loop kind target => cases kind <;> rfl
  | _ => rfl

@[simp] theorem loopsNeeded_setTarget (t : Target) (op : Op) :
    (op.setTarget t).loopsNeeded = op.loopsNeeded := by
  cases op with
  | loop kind target => cases kind <;> rfl
  | _ => rfl

/-- A branch that is patched may go to its new target, and else where it could go before. -/
theorem Goes.of_setTarget {b : Nat} (h : (op.setTarget (some b)).Goes i n j m) :
    op.Goes i n j m ∨ j = b ∧ m = op.landing n := by
  cases op with
  | exit => exact h.elim
  | callBuiltin _ | callWord _ | push _ | loopIndex _ | recurse => exact .inl h
  | branch t => exact .inr ⟨Option.some.inj h.1.symm, h.2⟩
  | branchIfFalse t =>
    obtain ⟨hj | hj, hm⟩ := h
    · exact .inl ⟨.inl hj, hm⟩
    · exact .inr ⟨Option.some.inj hj.symm, hm⟩
  | loop kind t =>
    cases kind with
    | start _ | unloop => exact .inl h
    | startUnlessEqual _ =>
      rcases h with h | ⟨hj, hm⟩
      · exact .inl (.inl h)
      · exact .inr ⟨Option.some.inj hj.symm, hm⟩
    | next | nextBy =>
      rcases h with ⟨hj, hm⟩ | h
      · exact .inr ⟨Option.some.inj hj.symm, hm⟩
      · exact .inl (.inr h)
    | leave => exact .inr ⟨Option.some.inj h.1.symm, Nat.eq_sub_of_add_eq h.2⟩

/-- The word that closes a loop goes back to the start of it, or drops the loop and goes on. -/
theorem Goes.of_closing (plus : Bool) {b : Nat}
    (h : (Op.loop (if plus then .nextBy else .next) (some b)).Goes i n j m) :
    j = b ∧ m = n ∨ j = i + 1 ∧ m + 1 = n := by
  cases plus <;> exact h.imp_left fun h => ⟨Option.some.inj h.1.symm, h.2⟩

/-- The word that opens a loop goes into it, or skips it if it is `?DO`. -/
theorem Goes.of_settleLoop {direction : LoopDirection} {b : Nat}
    (h : (Definition.settleLoop direction b op).Goes i n j m) :
    j = i + 1 ∧ m = n + 1 ∨ j = b ∧ m = n := by
  unfold Definition.settleLoop at h
  split at h
  · exact h.imp_right fun ⟨hj, hm⟩ => ⟨Option.some.inj hj.symm, hm⟩
  · exact .inl h

theorem landing_settleLoop (direction : LoopDirection) (b : Nat) (op : Op) :
    (Definition.settleLoop direction b op).landing n = n := by
  unfold Definition.settleLoop
  split <;> rfl

theorem loopsNeeded_settleLoop (direction : LoopDirection) (b : Nat) (op : Op) :
    (Definition.settleLoop direction b op).loopsNeeded = 0 := by
  unfold Definition.settleLoop
  split <;> rfl

end Op

namespace Code

/-- Every instruction has the loops open that it needs when as many are open as its level says, and
control goes on at an instruction whose level says how many are open then. -/
structure Leveled (code : Code) (levels : List Nat) : Prop where
  goes : ∀ {i n j m : Nat} {x : Instruction}, code[i]? = some x → levels[i]? = some n →
    x.op.Goes i n j m → levels[j]? = some m
  needs : ∀ {i n : Nat} {x : Instruction}, code[i]? = some x → levels[i]? = some n →
    x.op.loopsNeeded ≤ n

/-- The instruction has `n` loops open wherever it branches to. -/
def Awaits (code : Code) (levels : List Nat) (n index : Nat) : Prop :=
  ∃ x k, code[index]? = some x ∧ levels[index]? = some k ∧ x.op.landing k = n

/-- Levels stay as they are, and so do the levels where branches are to land. -/
structure Keeps (code code' : Code) (levels levels' : List Nat) : Prop where
  level : ∀ {i n : Nat}, levels[i]? = some n → levels'[i]? = some n
  awaits : ∀ {i n : Nat}, code.Awaits levels n i → Awaits code' levels' n i

variable {code code' code'' : Code} {levels levels' levels'' : List Nat} {n b : Nat}

theorem Keeps.refl (code : Code) (levels : List Nat) : Keeps code code levels levels :=
  ⟨id, id⟩

theorem Keeps.trans (h : Keeps code code' levels levels')
    (h' : Keeps code' code'' levels' levels'') : Keeps code code'' levels levels'' :=
  ⟨fun hl => h'.level (h.level hl), fun ha => h'.awaits (h.awaits ha)⟩

/-! ## Appending an instruction -/

theorem getElem?_append_level {i : Nat} (levels' : List Nat) (h : levels[i]? = some n) :
    (levels ++ levels')[i]? = some n := by
  rw [List.getElem?_append_left (List.getElem?_eq_some_iff.1 h).1]
  exact h

theorem keeps_push (code : Code) (levels : List Nat) (x : Instruction) (levels' : List Nat) :
    Keeps code (Array.push code x) levels (levels ++ levels') where
  level := getElem?_append_level levels'
  awaits := by
    rintro i n ⟨y, k, hy, hk, hn⟩
    refine ⟨y, k, ?_, getElem?_append_level levels' hk, hn⟩
    have hi := (Array.getElem?_eq_some_iff.1 hy).1
    rw [Array.getElem?_push, if_neg (by omega)]
    exact hy

/-- An instruction with `n` loops open may be appended if all the levels are right where control
goes from it. -/
theorem Leveled.push (h : Leveled code levels) (l : Option Location) (op : Op)
    (hn : levels[Array.size code]? = some n) (levels' : List Nat)
    (goes : ∀ j m, op.Goes (Array.size code) n j m → (levels ++ levels')[j]? = some m)
    (needs : op.loopsNeeded ≤ n) (hlen : levels.length = Array.size code + 1) :
    Leveled (Array.push code ⟨l, op⟩) (levels ++ levels') where
  goes := by
    intro i k j m x hx hk hg
    rw [Array.getElem?_push] at hx
    split at hx
    · rename_i hi
      cases hx
      rw [hi, getElem?_append_level levels' hn] at hk
      cases hk
      exact goes j m (hi ▸ hg)
    · have hi := (Array.getElem?_eq_some_iff.1 hx).1
      rw [List.getElem?_append_left (by omega)] at hk
      exact getElem?_append_level levels' (h.goes hx hk hg)
  needs := by
    intro i k x hx hk
    rw [Array.getElem?_push] at hx
    split at hx
    · rename_i hi
      cases hx
      rw [hi, getElem?_append_level levels' hn] at hk
      cases hk
      exact needs
    · have hi := (Array.getElem?_eq_some_iff.1 hx).1
      rw [List.getElem?_append_left (by omega)] at hk
      exact h.needs hx hk

/-! ## Patching branches -/

theorem keeps_retarget (code : Code) (levels : List Nat) (b index : Nat) :
    Keeps code (code.retarget b index) levels levels where
  level := id
  awaits := by
    rintro i n ⟨x, k, hx, hk, hn⟩
    unfold Awaits Code.retarget
    rw [Array.getElem?_modify, hx]
    split
    · exact ⟨_, k, rfl, hk, (Op.landing_setTarget ..).trans hn⟩
    · exact ⟨x, k, rfl, hk, hn⟩

/-- A branch may be patched to go to any instruction with the level that it is to land at. -/
theorem Leveled.retarget {index : Nat} (h : Leveled code levels)
    (hi : Awaits code levels n index) (hb : levels[b]? = some n) :
    Leveled (code.retarget b index) levels where
  goes := by
    intro i k j m x hx hk hg
    unfold Code.retarget at hx
    rw [Array.getElem?_modify] at hx
    split at hx
    · rename_i hindex
      obtain ⟨y, hy, rfl⟩ := Option.map_eq_some_iff.1 hx
      rcases hg.of_setTarget with hg | ⟨rfl, rfl⟩
      · exact h.goes hy hk hg
      · obtain ⟨z, k', hz, hk', hn⟩ := hi
        rw [hindex, hy] at hz
        rw [hindex, hk] at hk'
        cases hz
        cases hk'
        rw [hb, hn]
    · exact h.goes hx hk hg
  needs := by
    intro i k x hx hk
    unfold Code.retarget at hx
    rw [Array.getElem?_modify] at hx
    split at hx
    · obtain ⟨y, hy, rfl⟩ := Option.map_eq_some_iff.1 hx
      exact Nat.le_trans (Nat.le_of_eq (Op.loopsNeeded_setTarget ..)) (h.needs hy hk)
    · exact h.needs hx hk

theorem retargetAll_leveled {indices : List Nat} (h : Leveled code levels)
    (hi : ∀ i ∈ indices, Awaits code levels n i) (hb : levels[b]? = some n) :
    Leveled (code.retargetAll b indices) levels ∧
      Keeps code (code.retargetAll b indices) levels levels := by
  induction indices generalizing code with
  | nil => exact ⟨h, .refl code levels⟩
  | cons index indices ih =>
    have hk := keeps_retarget code levels b index
    obtain ⟨hl, hk'⟩ := ih (h.retarget (hi index List.mem_cons_self) hb)
      fun i hmem => hk.awaits (hi i (List.mem_cons_of_mem _ hmem))
    exact ⟨hl, hk.trans hk'⟩

/-! ## Settling a loop -/

variable {direction : LoopDirection} {marker : Nat}

theorem keeps_settle (direction : LoopDirection) (b : Nat) (hl : levels[marker]? = some n)
    (hm : Awaits code levels n marker) :
    Keeps code (code.settle direction b marker) levels levels where
  level := id
  awaits := by
    rintro i n' ⟨x, k, hx, hk, hn'⟩
    unfold Awaits Code.settle
    rw [Array.getElem?_modify, hx]
    split
    · -- The word that opens the loop was to land at its own level, and it still is.
      rename_i hi
      obtain ⟨y, k', hy, hk', hn⟩ := hm
      rw [hi, hx] at hy
      rw [hi, hk] at hk' hl
      cases hy
      cases hk'
      cases hl
      exact ⟨_, _, rfl, hk, (Op.landing_settleLoop ..).trans (hn.symm.trans hn')⟩
    · exact ⟨x, k, rfl, hk, hn'⟩

/-- The word that opens a loop may be settled if there is one more loop open behind it, and none
more at the end of the loop. -/
theorem Leveled.settle (h : Leveled code levels) (hl : levels[marker]? = some n)
    (hin : levels[marker + 1]? = some (n + 1)) (hb : levels[b]? = some n) :
    Leveled (code.settle direction b marker) levels where
  goes := by
    intro i k j m x hx hk hg
    unfold Code.settle at hx
    rw [Array.getElem?_modify] at hx
    split at hx
    · rename_i hi
      obtain ⟨y, -, rfl⟩ := Option.map_eq_some_iff.1 hx
      rw [← hi, hl] at hk
      cases hk
      rcases hg.of_settleLoop with ⟨rfl, rfl⟩ | ⟨rfl, rfl⟩
      · exact hi ▸ hin
      · exact hb
    · exact h.goes hx hk hg
  needs := by
    intro i k x hx hk
    unfold Code.settle at hx
    rw [Array.getElem?_modify] at hx
    split at hx
    · obtain ⟨y, -, rfl⟩ := Option.map_eq_some_iff.1 hx
      exact Nat.le_trans (Nat.le_of_eq (Op.loopsNeeded_settleLoop ..)) (Nat.zero_le k)
    · exact h.needs hx hk

end Code

end StackLang
