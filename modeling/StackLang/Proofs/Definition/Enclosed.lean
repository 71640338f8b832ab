import StackLang.Proofs.Definition.Growth

/-!
# The code of a well-nested body

A well-nested body without `LEAVE`, `UNLOOP` and `EXIT` compiles to a stretch of code that control
only leaves at its end, with as many loops open as at its start; and in between there are never
fewer, so that no word of the body works on a loop from outside of it.

* `Code.Encloses`: control stays in a stretch of code up to its end.
* `Code.Encloses.append`, `Code.Encloses.absorb`: stretches put together, and branches from one end
  to the other.
* `Definition.Lays`: what building such a body does.
* `lays_build`: every well-nested body does that.
-/

namespace StackLang

/-- The number of loops that the operation steps or drops. -/
def Op.loopsTaken : Op → Nat
  | .loop .next _ | .loop .nextBy _ | .loop .leave _ | .loop .unloop _ => 1
  | _ => 0

/-- A word that keeps control inside of the body that it stands in. -/
def BodyWord.staysInside : BodyWord → Bool
  | control .leave | control .unloop | control .exit => false
  | _ => true

namespace Code

/-- Wherever control is from `lo` up to `hi`, at least `n` loops are open that the next instruction
leaves alone, and it goes on up to `hi`, or to a place in `out` with just those open.  At both ends
`n` loops are open. -/
def Encloses (code : Code) (n : Nat) (out : Nat → Prop) (lo hi : Nat) : Prop :=
  lo ≤ hi ∧ ∃ level : Nat → Nat, level lo = n ∧ level hi = n ∧
    ∀ i, lo ≤ i → i < hi → ∃ x, code[i]? = some x ∧ x.op ≠ .exit ∧
      n + x.op.loopsTaken ≤ level i ∧ ∀ j m, x.op.Goes i (level i) j m →
        lo ≤ j ∧ j ≤ hi ∧ level j = m ∨ out j ∧ m = n

namespace Encloses

variable {code code' : Code} {n lo mid hi : Nat} {out out' : Nat → Prop}

theorem nil (code : Code) (n : Nat) (out : Nat → Prop) (lo : Nat) : code.Encloses n out lo lo :=
  ⟨Nat.le_refl _, fun _ => n, rfl, rfl, fun i h h' => by omega⟩

/-- An instruction that goes on behind itself or leaves. -/
theorem single {x : Instruction} (hx : code[lo]? = some x) (hexit : x.op ≠ .exit)
    (htaken : x.op.loopsTaken = 0)
    (hgoes : ∀ j m, x.op.Goes lo n j m → (j = lo + 1 ∨ out j) ∧ m = n) :
    code.Encloses n out lo (lo + 1) := by
  refine ⟨Nat.le_succ _, fun _ => n, rfl, rfl, fun i h h' => ?_⟩
  obtain rfl : i = lo := by omega
  refine ⟨x, hx, hexit, Nat.le_of_eq (by rw [htaken]; rfl), fun j m hg => ?_⟩
  obtain ⟨rfl | hj, rfl⟩ := hgoes j m hg
  · exact .inl ⟨by omega, by omega, rfl⟩
  · exact .inr ⟨hj, rfl⟩

theorem mono (h : code.Encloses n out lo hi) (ho : ∀ j, out j → out' j) :
    code.Encloses n out' lo hi := by
  obtain ⟨hle, level, hlo, hhi, hall⟩ := h
  refine ⟨hle, level, hlo, hhi, fun i hi hi' => ?_⟩
  obtain ⟨x, hx, hexit, htaken, hgoes⟩ := hall i hi hi'
  exact ⟨x, hx, hexit, htaken, fun j m hg =>
    (hgoes j m hg).imp_right fun ⟨hj, hm⟩ => ⟨ho j hj, hm⟩⟩

/-- Only the stretch itself matters. -/
theorem congr (h : code.Encloses n out lo hi)
    (hc : ∀ i, lo ≤ i → i < hi → code'[i]? = code[i]?) : code'.Encloses n out lo hi := by
  obtain ⟨hle, level, hlo, hhi, hall⟩ := h
  refine ⟨hle, level, hlo, hhi, fun i hi hi' => ?_⟩
  rw [hc i hi hi']
  exact hall i hi hi'

theorem append (h : code.Encloses n out lo mid) (h' : code.Encloses n out mid hi) :
    code.Encloses n out lo hi := by
  obtain ⟨hle, level, hlo, hmid, hall⟩ := h
  obtain ⟨hle', level', hmid', hhi, hall'⟩ := h'
  -- At the place in the middle both stretches agree on the level.
  have hfirst {j : Nat} (hj : j ≤ mid) : (if j < mid then level j else level' j) = level j := by
    split
    · rfl
    · obtain rfl : j = mid := by omega
      rw [hmid, hmid']
  have hsecond {j : Nat} (hj : mid ≤ j) : (if j < mid then level j else level' j) = level' j :=
    if_neg (by omega)
  refine ⟨by omega, fun i => if i < mid then level i else level' i, (hfirst hle).trans hlo,
    (hsecond hle').trans hhi, fun i hi hi' => ?_⟩
  dsimp only
  by_cases h : i < mid
  · obtain ⟨x, hx, hexit, htaken, hgoes⟩ := hall i hi h
    rw [hfirst (Nat.le_of_lt h)]
    refine ⟨x, hx, hexit, htaken, fun j m hg => ?_⟩
    exact (hgoes j m hg).imp_left fun ⟨hj, hj', hm⟩ => ⟨hj, by omega, (hfirst hj').trans hm⟩
  · obtain ⟨x, hx, hexit, htaken, hgoes⟩ := hall' i (by omega) hi'
    rw [hsecond (by omega)]
    refine ⟨x, hx, hexit, htaken, fun j m hg => ?_⟩
    exact (hgoes j m hg).imp_left fun ⟨hj, hj', hm⟩ => ⟨by omega, hj', (hsecond hj).trans hm⟩

/-- Branches to the two ends do not leave the stretch. -/
theorem absorb (h : code.Encloses n (fun j => j = lo ∨ j = hi ∨ out j) lo hi) :
    code.Encloses n out lo hi := by
  obtain ⟨hle, level, hlo, hhi, hall⟩ := h
  refine ⟨hle, level, hlo, hhi, fun i hi hi' => ?_⟩
  obtain ⟨x, hx, hexit, htaken, hgoes⟩ := hall i hi hi'
  refine ⟨x, hx, hexit, htaken, fun j m hg => ?_⟩
  rcases hgoes j m hg with hin | ⟨rfl | rfl | hj, rfl⟩
  · exact .inl hin
  · exact .inl ⟨Nat.le_refl _, hle, hlo⟩
  · exact .inl ⟨hle, Nat.le_refl _, hhi⟩
  · exact .inr ⟨hj, rfl⟩

/-- A counted loop around a stretch with one more loop open. -/
theorem counted {x y : Instruction} {direction : LoopDirection} {query plus : Bool}
    (h : code.Encloses (n + 1) (fun _ => False) (lo + 1) hi) (hx : code[lo]? = some x)
    (hxop : x.op = .loop (if query then .startUnlessEqual direction else .start direction)
      (some (hi + 1)))
    (hy : code[hi]? = some y)
    (hyop : y.op = .loop (if plus then .nextBy else .next) (some (lo + 1))) :
    code.Encloses n (fun _ => False) lo (hi + 1) := by
  obtain ⟨hle, level, hlo, hhi, hall⟩ := h
  have hin {j : Nat} (hj : lo + 1 ≤ j) (hj' : j ≤ hi) :
      (if lo < j ∧ j ≤ hi then level j else n) = level j := if_pos ⟨by omega, hj'⟩
  have hstart : (if lo < lo ∧ lo ≤ hi then level lo else n) = n := if_neg (by omega)
  have hend : (if lo < hi + 1 ∧ hi + 1 ≤ hi then level (hi + 1) else n) = n := if_neg (by omega)
  refine ⟨by omega, fun i => if lo < i ∧ i ≤ hi then level i else n, hstart, hend,
    fun i hi₁ hi₂ => ?_⟩
  dsimp only
  obtain rfl | rfl | hmid : i = lo ∨ i = hi ∨ lo + 1 ≤ i ∧ i < hi := by omega
  · rw [hstart]
    refine ⟨x, hx, by rw [hxop]; exact nofun, by rw [hxop]; cases query <;> exact Nat.le_refl _,
      fun j m hg => ?_⟩
    rw [hxop] at hg
    refine .inl ?_
    obtain ⟨rfl, rfl⟩ | ⟨rfl, rfl⟩ : j = i + 1 ∧ m = n + 1 ∨ j = hi + 1 ∧ m = n := by
      cases query with
      | false => exact .inl hg
      | true => exact hg.imp_right fun ⟨hj, hm⟩ => ⟨Option.some.inj hj.symm, hm⟩
    · exact ⟨by omega, by omega, (hin (Nat.le_refl _) hle).trans hlo⟩
    · exact ⟨by omega, Nat.le_refl _, hend⟩
  · rw [hin hle (Nat.le_refl _), hhi]
    refine ⟨y, hy, by rw [hyop]; exact nofun, by rw [hyop]; cases plus <;> exact Nat.le_refl _,
      fun j m hg => ?_⟩
    rw [hyop] at hg
    refine .inl ?_
    rcases hg.of_closing plus with ⟨rfl, rfl⟩ | ⟨rfl, hm⟩
    · exact ⟨by omega, by omega, (hin (Nat.le_refl _) hle).trans hlo⟩
    · exact ⟨by omega, Nat.le_refl _, hend.trans (by omega)⟩
  · obtain ⟨z, hz, hexit, htaken, hgoes⟩ := hall i hmid.1 hmid.2
    rw [hin hmid.1 (Nat.le_of_lt hmid.2)]
    refine ⟨z, hz, hexit, by omega, fun j m hg => ?_⟩
    rcases hgoes j m hg with ⟨hj, hj', hm⟩ | ⟨hf, -⟩
    · exact .inl ⟨by omega, by omega, (hin hj hj').trans hm⟩
    · exact hf.elim

end Encloses

theorem getElem?_settle (code : Code) (direction : LoopDirection) (behind marker i : Nat) :
    (code.settle direction behind marker)[i]? = if marker = i then
      code[i]?.map fun x => ⟨x.location, Definition.settleLoop direction behind x.op⟩
    else code[i]? :=
  Array.getElem?_modify

@[simp] theorem size_settle (code : Code) (direction : LoopDirection) (behind marker : Nat) :
    Array.size (code.settle direction behind marker) = Array.size code :=
  Array.size_modify

theorem getElem?_retarget (code : Code) (target index i : Nat) :
    (code.retarget target index)[i]? = if index = i then
      code[i]?.map fun x => ⟨x.location, x.op.setTarget (some target)⟩ else code[i]? :=
  Array.getElem?_modify

end Code

namespace Definition

variable {d d' d'' : Definition} {l : Option Location} {depth : Nat}

/-- Building has closed what it has opened, changed nothing of what was there, and appended a
stretch of code that control does not leave. -/
structure Lays (depth : Nat) (d d' : Definition) : Prop where
  control : d'.control = d.control
  same : ∀ i, i < d.code.size → d'.code[i]? = d.code[i]?
  encloses : Code.Encloses d'.code depth (fun _ => False) d.code.size d'.code.size

namespace Lays

theorem refl (depth : Nat) (d : Definition) : Lays depth d d :=
  ⟨rfl, fun _ _ => rfl, .nil ..⟩

theorem size_le (h : Lays depth d d') : d.code.size ≤ d'.code.size :=
  h.encloses.1

theorem trans (h : Lays depth d d') (h' : Lays depth d' d'') : Lays depth d d'' where
  control := h'.control.trans h.control
  same := fun i hi => (h'.same i (Nat.lt_of_lt_of_le hi h.size_le)).trans (h.same i hi)
  encloses := (h.encloses.congr fun i _ hi => h'.same i hi).append h'.encloses

/-- An instruction that only goes on behind itself. -/
theorem of_push {op : Op} (hd' : d' = { d with code := d.code.push ⟨l, op⟩ }) (hexit : op ≠ .exit)
    (htaken : op.loopsTaken = 0)
    (hgoes : ∀ i j m, op.Goes i depth j m → j = i + 1 ∧ m = depth) : Lays depth d d' := by
  subst hd'
  refine ⟨rfl, fun i hi => Code.getElem?_push_of_lt _ hi, ?_⟩
  dsimp only
  rw [Array.size_push]
  exact .single (Array.getElem?_push_size ..) hexit htaken fun j m hg =>
    (hgoes _ j m hg).imp_left .inl

end Lays

/-! ## The structures -/

section

variable {d₁ d₂ d₃ d₄ : Definition} {l₁ l₂ l₃ : Option Location}

theorem lays_ifThen (hopen : compileIf l₁ d = .ok () d₁) (ha : Lays depth d₁ d₂)
    (hclose : compileThen d₂ = .ok () d') : Lays depth d d' := by
  rw [compileIf_eq] at hopen
  cases hopen
  have hsize := ha.size_le
  rw [compileThen_eq, ha.control] at hclose
  cases hclose
  simp only [Array.size_push] at hsize
  have hcode (i : Nat) (hi : i ≠ d.code.size) :
      (Code.retarget d₂.code d₂.code.size d.code.size)[i]? = d₂.code[i]? := by
    rw [Code.getElem?_retarget, if_neg (Ne.symm hi)]
  have hx : (Code.retarget d₂.code d₂.code.size d.code.size)[d.code.size]? =
      some ⟨l₁, .branchIfFalse (some d₂.code.size)⟩ := by
    rw [Code.getElem?_retarget, if_pos rfl, ha.same _ (by simp), Array.getElem?_push_size]
    rfl
  have hbody := ha.encloses.congr fun i hi _ => hcode i (by simp at hi; omega)
  rw [Array.size_push] at hbody
  refine ⟨rfl, fun i hi => ?_, ?_⟩
  · dsimp only
    rw [hcode i (by omega), ha.same i (by simp; omega), Code.getElem?_push_of_lt _ hi]
  · dsimp only
    rw [Code.size_retarget]
    refine .absorb (.append (.single hx nofun rfl fun j m hg => ?_)
      (hbody.mono fun _ hf => hf.elim))
    exact ⟨hg.1.imp_right fun hj => .inr (.inl (Option.some.inj hj.symm)), hg.2⟩

theorem lays_ifElse (hopen : compileIf l₁ d = .ok () d₁) (ha : Lays depth d₁ d₂)
    (helse : compileElse l₂ d₂ = .ok () d₃) (hb : Lays depth d₃ d₄)
    (hclose : compileThen d₄ = .ok () d') : Lays depth d d' := by
  rw [compileIf_eq] at hopen
  cases hopen
  have hsize := ha.size_le
  rw [compileElse_eq, ha.control] at helse
  cases helse
  have hsize' := hb.size_le
  rw [compileThen_eq, hb.control] at hclose
  cases hclose
  simp only [Array.size_push, Code.size_retarget] at hsize hsize'
  -- The code at the end, before the second arm and before the first one.
  have hcode (i : Nat) (hi : i ≠ d₂.code.size) :
      (Code.retarget d₄.code d₄.code.size d₂.code.size)[i]? = d₄.code[i]? := by
    rw [Code.getElem?_retarget, if_neg (Ne.symm hi)]
  have hfirst (i : Nat) (hi : i < d₂.code.size) : d₄.code[i]? =
      (Code.retarget d₂.code (d₂.code.size + 1) d.code.size)[i]? := by
    rw [hb.same i (by simp; omega), Code.getElem?_retarget, Code.getElem?_retarget,
      Code.getElem?_push_of_lt _ hi]
  have hx : (Code.retarget d₄.code d₄.code.size d₂.code.size)[d.code.size]? =
      some ⟨l₁, .branchIfFalse (some (d₂.code.size + 1))⟩ := by
    rw [hcode _ (by omega), hfirst _ (by omega), Code.getElem?_retarget, if_pos rfl,
      ha.same _ (by simp), Array.getElem?_push_size]
    rfl
  have hy : (Code.retarget d₄.code d₄.code.size d₂.code.size)[d₂.code.size]? =
      some ⟨l₂, .branch (some d₄.code.size)⟩ := by
    rw [Code.getElem?_retarget, if_pos rfl, hb.same _ (by simp), Code.getElem?_retarget,
      if_neg (by omega), Array.getElem?_push_size]
    rfl
  have hbody := ha.encloses.congr fun i hi hi' => by
    rw [hcode i (by omega), hfirst i hi', Code.getElem?_retarget, if_neg (by simp at hi; omega)]
  have hbody' := hb.encloses.congr fun i hi _ => hcode i (by simp at hi; omega)
  simp only [Array.size_push, Code.size_retarget] at hbody hbody'
  refine ⟨rfl, fun i hi => ?_, ?_⟩
  · dsimp only
    rw [hcode i (by omega), hfirst i (by omega), Code.getElem?_retarget, if_neg (by omega),
      ha.same i (by simp; omega), Code.getElem?_push_of_lt _ hi]
  · dsimp only
    rw [Code.size_retarget]
    have harm : Code.Encloses (Code.retarget d₄.code d₄.code.size d₂.code.size) depth
        (fun j => j = d₄.code.size) d.code.size (d₂.code.size + 1) := by
      refine .absorb (.append (.append (.single hx nofun rfl fun j m hg => ?_)
        (hbody.mono fun _ hf => hf.elim)) (.single hy nofun rfl fun j m hg => ?_))
      · exact ⟨hg.1.imp_right fun hj => .inr (.inl (Option.some.inj hj.symm)), hg.2⟩
      · exact ⟨.inr (.inr (.inr (Option.some.inj hg.1.symm))), hg.2⟩
    exact .absorb (.append (harm.mono fun _ hj => .inr (.inl hj)) (hbody'.mono fun _ hf => hf.elim))

/-- A loop whose end goes back to its start. -/
theorem lays_of_back {op : Op} (ha : Lays depth d₁ d₂) (hopen : d₁.code = d.code)
    (hd' : d' = { d₂ with code := d₂.code.push ⟨l, op⟩, control := d.control })
    (hexit : op ≠ .exit) (htaken : op.loopsTaken = 0)
    (hgoes : ∀ i j m, op.Goes i depth j m → (j = i + 1 ∨ j = d.code.size) ∧ m = depth) :
    Lays depth d d' := by
  subst hd'
  have hsize := ha.size_le
  rw [hopen] at hsize
  have hbody : Code.Encloses (d₂.code.push ⟨l, op⟩) _ _ _ _ := ha.encloses.congr fun i _ hi =>
    Code.getElem?_push_of_lt _ hi
  rw [hopen] at hbody
  refine ⟨rfl, fun i hi => ?_, ?_⟩
  · dsimp only
    rw [Code.getElem?_push_of_lt _ (by omega), ha.same i (by rw [hopen]; exact hi), hopen]
  · dsimp only
    rw [Array.size_push]
    refine .absorb (.append (hbody.mono fun _ hf => hf.elim)
      (.single (Array.getElem?_push_size ..) hexit htaken fun j m hg => ?_))
    exact (hgoes _ j m hg).imp_left fun hj => hj.imp_right .inl

theorem lays_untilLoop (hopen : compileBegin d = .ok () d₁) (ha : Lays depth d₁ d₂)
    (hclose : compileUntil l d₂ = .ok () d') : Lays depth d d' := by
  cases hopen
  rw [compileUntil_eq, ha.control] at hclose
  cases hclose
  refine lays_of_back ha rfl rfl nofun rfl fun i j m hg => ⟨?_, hg.2⟩
  exact hg.1.imp_right fun hj => Option.some.inj hj.symm

theorem lays_again (hopen : compileBegin d = .ok () d₁) (ha : Lays depth d₁ d₂)
    (hclose : compileAgain l d₂ = .ok () d') : Lays depth d d' := by
  cases hopen
  rw [compileAgain_eq, ha.control] at hclose
  cases hclose
  exact lays_of_back ha rfl rfl nofun rfl fun i j m hg =>
    ⟨.inr (Option.some.inj hg.1.symm), hg.2⟩

theorem lays_whileLoop (hopen : compileBegin d = .ok () d₁) (ha : Lays depth d₁ d₂)
    (hwhile : compileWhile l₂ d₂ = .ok () d₃) (hb : Lays depth d₃ d₄)
    (hclose : compileRepeat l₃ d₄ = .ok () d') : Lays depth d d' := by
  rw [compileBegin_eq] at hopen
  cases hopen
  have hsize := ha.size_le
  rw [compileWhile_eq, ha.control] at hwhile
  cases hwhile
  have hsize' := hb.size_le
  rw [compileRepeat_eq, hb.control] at hclose
  cases hclose
  simp only [Array.size_push] at hsize hsize'
  have hcode (i : Nat) (hi : i < d₄.code.size) (hne : i ≠ d₂.code.size) :
      (Code.retarget (d₄.code.push ⟨l₃, .branch (some d.code.size)⟩) (d₄.code.size + 1)
        d₂.code.size)[i]? = d₄.code[i]? := by
    rw [Code.getElem?_retarget, if_neg (Ne.symm hne), Code.getElem?_push_of_lt _ hi]
  have hfirst (i : Nat) (hi : i < d₂.code.size) : d₄.code[i]? = d₂.code[i]? := by
    rw [hb.same i (by simp; omega), Code.getElem?_push_of_lt _ hi]
  have hx : (Code.retarget (d₄.code.push ⟨l₃, .branch (some d.code.size)⟩) (d₄.code.size + 1)
      d₂.code.size)[d₂.code.size]? = some ⟨l₂, .branchIfFalse (some (d₄.code.size + 1))⟩ := by
    rw [Code.getElem?_retarget, if_pos rfl, Code.getElem?_push_of_lt _ (by omega),
      hb.same _ (by simp), Array.getElem?_push_size]
    rfl
  have hy : (Code.retarget (d₄.code.push ⟨l₃, .branch (some d.code.size)⟩) (d₄.code.size + 1)
      d₂.code.size)[d₄.code.size]? = some ⟨l₃, .branch (some d.code.size)⟩ := by
    rw [Code.getElem?_retarget, if_neg (by omega), Array.getElem?_push_size]
  have hbody := ha.encloses.congr fun i _ hi => by
    rw [hcode i (by omega) (by omega), hfirst i hi]
  have hbody' := hb.encloses.congr fun i hi hi' => hcode i hi' (by simp at hi; omega)
  simp only [Array.size_push] at hbody'
  refine ⟨rfl, fun i hi => ?_, ?_⟩
  · dsimp only
    rw [hcode i (by omega) (by omega), hfirst i (by omega), ha.same i hi]
  · dsimp only
    rw [Code.size_retarget, Array.size_push]
    refine .absorb (.append (.append (.append (hbody.mono fun _ hf => hf.elim)
      (.single hx nofun rfl fun j m hg => ?_)) (hbody'.mono fun _ hf => hf.elim))
      (.single hy nofun rfl fun j m hg => ?_))
    · exact ⟨hg.1.imp_right fun hj => .inr (.inl (Option.some.inj hj.symm)), hg.2⟩
    · exact ⟨.inr (.inl (Option.some.inj hg.1.symm)), hg.2⟩

theorem lays_counted (query plus : Bool) (hopen : compileDo l₁ query d = .ok () d₁)
    (ha : Lays (depth + 1) d₁ d₂) (hclose : compileLoop l₂ plus d₂ = .ok () d') :
    Lays depth d d' := by
  rw [compileDo_eq] at hopen
  cases hopen
  have hsize := ha.size_le
  rw [compileLoop_eq, ha.control] at hclose
  cases hclose
  simp only [Array.size_push] at hsize
  generalize (if plus then d₂.stepDirection d.code.size else .ascending) = direction
  generalize hsettled : Code.settle (d₂.code.push
    ⟨l₂, .loop (if plus then .nextBy else .next) (some (d.code.size + 1))⟩) direction
    (d₂.code.size + 1) d.code.size = code
  have hcode (i : Nat) (hi : i < d₂.code.size) (hne : i ≠ d.code.size) :
      code[i]? = d₂.code[i]? := by
    rw [← hsettled, Code.getElem?_settle, if_neg (Ne.symm hne), Code.getElem?_push_of_lt _ hi]
  have hx : code[d.code.size]? = some ⟨l₁, .loop
      (if query then .startUnlessEqual direction else .start direction)
      (some (d₂.code.size + 1))⟩ := by
    rw [← hsettled, Code.getElem?_settle, if_pos rfl, Code.getElem?_push_of_lt _ (by omega),
      ha.same _ (by simp), Array.getElem?_push_size]
    cases query <;> rfl
  have hy : code[d₂.code.size]? =
      some ⟨l₂, .loop (if plus then .nextBy else .next) (some (d.code.size + 1))⟩ := by
    rw [← hsettled, Code.getElem?_settle, if_neg (by omega), Array.getElem?_push_size]
  have hsize' : Array.size code = d₂.code.size + 1 := by
    rw [← hsettled, Code.size_settle, Array.size_push]
  have hbody := ha.encloses.congr fun i hi hi' => hcode i hi' (by simp at hi; omega)
  rw [Array.size_push] at hbody
  refine ⟨rfl, fun i hi => ?_, ?_⟩
  · show code[i]? = d.code[i]?
    rw [hcode i (by omega) (by omega), ha.same i (by simp; omega), Code.getElem?_push_of_lt _ hi]
  · show Code.Encloses code depth _ _ (Array.size code)
    rw [hsize']
    exact .counted hbody hx rfl hy rfl

end

/-! ## Whole bodies -/

/-- Building these words, wherever they stand in the source. -/
def Builds (ws : List BodyWord) (d d' : Definition) : Prop :=
  ∃ located : List (Option Location × BodyWord), located.map Prod.snd = ws ∧
    build located d = .ok () d'

namespace Builds

variable {ws ws' : List BodyWord} {w : BodyWord}

theorem of_build {located : List (Option Location × BodyWord)}
    (hok : build located d = .ok () d') : Builds (located.map Prod.snd) d d' :=
  ⟨located, rfl, hok⟩

theorem nil (h : Builds [] d d') : d' = d := by
  obtain ⟨located, hl, hok⟩ := h
  cases List.map_eq_nil_iff.1 hl
  cases hok
  rfl

theorem append (h : Builds (ws ++ ws') d d'') : ∃ d', Builds ws d d' ∧ Builds ws' d' d'' := by
  obtain ⟨located, hl, hok⟩ := h
  obtain ⟨first, rest, rfl, hfirst, hrest⟩ := List.map_eq_append_iff.1 hl
  obtain ⟨d', hok, hok'⟩ := exists_of_build_append hok
  exact ⟨d', ⟨first, hfirst, hok⟩, ⟨rest, hrest, hok'⟩⟩

theorem cons (h : Builds (w :: ws) d d'') :
    ∃ l d', w.compileStep l d = .ok () d' ∧ Builds ws d' d'' := by
  obtain ⟨located, hl, hok⟩ := h
  obtain ⟨⟨l, w'⟩, rest, rfl, rfl, hrest⟩ := List.map_eq_cons_iff.1 hl
  obtain ⟨d', hok, hok'⟩ := exists_of_build_cons hok
  exact ⟨l, d', hok, ⟨rest, hrest, hok'⟩⟩

theorem singleton (h : Builds [w] d d') : ∃ l, w.compileStep l d = .ok () d' := by
  obtain ⟨l, d₁, hok, hnil⟩ := h.cons
  cases hnil.nil
  exact ⟨l, hok⟩

/-- A word, what is enclosed behind it, and what comes behind that. -/
theorem enclosed (h : Builds (w :: (ws ++ ws')) d d'') :
    ∃ l d₁ d₂, w.compileStep l d = .ok () d₁ ∧ Builds ws d₁ d₂ ∧ Builds ws' d₂ d'' := by
  obtain ⟨l, d₁, hok, h⟩ := h.cons
  obtain ⟨d₂, hws, hws'⟩ := h.append
  exact ⟨l, d₁, d₂, hok, hws, hws'⟩

end Builds

theorem lays_plain {w : BodyWord} (hw : w.isPlain = true) (hin : w.staysInside = true)
    (hok : w.compileStep l d = .ok () d') : Lays depth d d' := by
  cases w with
  | literal v =>
    cases hok
    exact .of_push rfl nofun rfl fun i j m hg => hg
  | call builtin index =>
    cases hok
    cases builtin <;> exact .of_push rfl nofun rfl fun i j m hg => hg
  | control w =>
    cases w with
    | recurse =>
      cases hok
      exact .of_push rfl nofun rfl fun i j m hg => hg
    | exit => cases hin
    | _ => cases hw

theorem lays_loopIndex {word : String} {n : Nat} (hok : compileLoopIndex l word n d = .ok () d') :
    Lays depth d d' := by
  rw [compileLoopIndex_eq] at hok
  split at hok
  · cases hok
  · cases hok
    exact .of_push rfl nofun rfl fun i j m hg => hg

theorem exists_compileDo {w : ControlWord} (hw : w.opensLoop = true) (l : Option Location) :
    ∃ query, BodyWord.compileStep l (.control w) = compileDo l query := by
  cases w with
  | openDo => exact ⟨false, rfl⟩
  | openQueryDo => exact ⟨true, rfl⟩
  | _ => cases hw

theorem exists_compileLoop {w : ControlWord} (hw : w.closesLoop = true) (l : Option Location) :
    ∃ plus, BodyWord.compileStep l (.control w) = compileLoop l plus := by
  cases w with
  | closeLoop => exact ⟨false, rfl⟩
  | closePlusLoop => exact ⟨true, rfl⟩
  | _ => cases hw

mutual

/-- A well-nested body whose words stay inside is laid out as a stretch of code that control does
not leave. -/
theorem lays_wellNested {depth : Nat} {ws : List BodyWord} {d d' : Definition} :
    WellNested depth ws → (∀ w ∈ ws, w.staysInside = true) → Builds ws d d' → Lays depth d d'
  | .nil, _, h => h.nil ▸ .refl ..
  | .cons hx hws, hin, h => by
    rw [List.forall_mem_append] at hin
    obtain ⟨d₁, h₁, h₂⟩ := h.append
    exact (lays_phrase hx hin.1 h₁).trans (lays_wellNested hws hin.2 h₂)

theorem lays_phrase {depth : Nat} {x : List BodyWord} {d d' : Definition} :
    Phrase depth x → (∀ w ∈ x, w.staysInside = true) → Builds x d d' → Lays depth d d'
  | .plain hw, hin, h => by
    obtain ⟨l, hok⟩ := h.singleton
    exact lays_plain hw (hin _ List.mem_cons_self) hok
  | .ifThen ha, hin, h => by
    simp only [List.forall_mem_cons, List.forall_mem_append] at hin
    obtain ⟨l₁, d₁, d₂, hopen, hbody, h⟩ := h.enclosed
    obtain ⟨l₂, hclose⟩ := h.singleton
    exact lays_ifThen hopen (lays_wellNested ha hin.2.1 hbody) hclose
  | .ifElse ha hb, hin, h => by
    simp only [List.forall_mem_cons, List.forall_mem_append] at hin
    obtain ⟨l₁, d₁, d₂, hopen, hbody, h⟩ := h.enclosed
    obtain ⟨l₂, d₃, d₄, helse, hbody', h⟩ := h.enclosed
    obtain ⟨l₃, hclose⟩ := h.singleton
    exact lays_ifElse hopen (lays_wellNested ha hin.2.1 hbody) helse
      (lays_wellNested hb hin.2.2.2.1 hbody') hclose
  | .untilLoop ha, hin, h => by
    simp only [List.forall_mem_cons, List.forall_mem_append] at hin
    obtain ⟨l₁, d₁, d₂, hopen, hbody, h⟩ := h.enclosed
    obtain ⟨l₂, hclose⟩ := h.singleton
    exact lays_untilLoop hopen (lays_wellNested ha hin.2.1 hbody) hclose
  | .again ha, hin, h => by
    simp only [List.forall_mem_cons, List.forall_mem_append] at hin
    obtain ⟨l₁, d₁, d₂, hopen, hbody, h⟩ := h.enclosed
    obtain ⟨l₂, hclose⟩ := h.singleton
    exact lays_again hopen (lays_wellNested ha hin.2.1 hbody) hclose
  | .whileLoop ha hb, hin, h => by
    simp only [List.forall_mem_cons, List.forall_mem_append] at hin
    obtain ⟨l₁, d₁, d₂, hopen, hbody, h⟩ := h.enclosed
    obtain ⟨l₂, d₃, d₄, hwhile, hbody', h⟩ := h.enclosed
    obtain ⟨l₃, hclose⟩ := h.singleton
    exact lays_whileLoop hopen (lays_wellNested ha hin.2.1 hbody) hwhile
      (lays_wellNested hb hin.2.2.2.1 hbody') hclose
  | .counted ho hc ha, hin, h => by
    simp only [List.forall_mem_cons, List.forall_mem_append] at hin
    obtain ⟨l₁, d₁, d₂, hopen, hbody, h⟩ := h.enclosed
    obtain ⟨l₂, hclose⟩ := h.singleton
    obtain ⟨query, hquery⟩ := exists_compileDo ho l₁
    obtain ⟨plus, hplus⟩ := exists_compileLoop hc l₂
    exact lays_counted query plus (hquery ▸ hopen) (lays_wellNested ha hin.2.1 hbody)
      (hplus ▸ hclose)
  | .leave _, hin, _ | .unloop _, hin, _ => by
    cases hin _ List.mem_cons_self
  | .index _, _, h | .outerIndex _, _, h => by
    obtain ⟨l, hok⟩ := h.singleton
    exact lays_loopIndex hok

end

theorem lays_build {ws : List (Option Location × BodyWord)}
    (hws : WellNested depth (ws.map Prod.snd)) (hin : ∀ x ∈ ws, x.2.staysInside = true)
    (hok : build ws d = .ok () d') : Lays depth d d' :=
  lays_wellNested hws (List.forall_mem_map.2 hin) (.of_build hok)

end Definition

end StackLang
