import StackLang.Proofs.Call.Loops
import StackLang.Proofs.Call.Run
import StackLang.Proofs.Definition.CountedLoops

/-!
# Control in a stretch of code

While a word runs in a stretch of its code that control only leaves at the end, the loops that were
open before it stay as they are, whatever the words do that are called from there.

* `Op.Shifts.above`: an operation leaves the loops alone that lie below those it takes.
* `Session.OnWay`: the sessions on the way to the first one with some property.
* `Session.Inside`: what holds of each of them within a stretch of code.
* `Inside.step`, `Inside.onWay`: one step keeps it up to the end of the stretch, and so does a run.
* `loops_of_onWay`: the loops that are open on the way through a stretch.
-/

namespace StackLang

open Action ReturnStack

/-- An operation leaves the loops alone that lie below those it takes. -/
theorem Op.Shifts.above {op : Op} {i j : Nat} {inner outer loops : List LoopFrame} (n : Nat)
    (h : op.Shifts i (inner ++ outer) j loops) (htaken : op.loopsTaken ≤ inner.length) :
    ∃ inner', loops = inner' ++ outer ∧
      op.Goes i (n + inner.length) j (n + inner'.length) := by
  have taken (hpos : 0 < inner.length) : ∃ x rest, inner = x :: rest :=
    List.exists_cons_of_length_pos hpos
  have advances {step : Int64} {t : Target} (hpos : 0 < inner.length)
      (ha : LoopKind.Advances step t i (inner ++ outer) j loops) :
      ∃ inner', loops = inner' ++ outer ∧ (t = some j ∧ n + inner'.length = n + inner.length ∨
        j = i + 1 ∧ n + inner'.length + 1 = n + inner.length) := by
    obtain ⟨y, inner, rfl⟩ := taken hpos
    obtain ⟨x, rest, hl, ⟨-, ht, rfl⟩ | ⟨rfl, rfl⟩⟩ := ha
    · cases hl
      exact ⟨y.stepped step :: inner, rfl, .inl ⟨ht, rfl⟩⟩
    · cases hl
      exact ⟨inner, rfl, .inr ⟨rfl, rfl⟩⟩
  have dropped (hpos : 0 < inner.length) {x : LoopFrame} (hl : inner ++ outer = x :: loops) :
      ∃ inner', loops = inner' ++ outer ∧ n + inner'.length + 1 = n + inner.length := by
    obtain ⟨y, inner, rfl⟩ := taken hpos
    cases hl
    exact ⟨inner, rfl, rfl⟩
  cases op with
  | exit => exact h.elim
  | callBuiltin _ | callWord _ | push _ | loopIndex _ | recurse =>
    obtain ⟨rfl, rfl⟩ := h
    exact ⟨inner, rfl, rfl, rfl⟩
  | branch t =>
    obtain ⟨ht, rfl⟩ := h
    exact ⟨inner, rfl, ht, rfl⟩
  | branchIfFalse t =>
    obtain ⟨ht, rfl⟩ := h
    exact ⟨inner, rfl, ht, rfl⟩
  | loop kind t =>
    cases kind with
    | start direction =>
      obtain ⟨rfl, x, rfl⟩ := h
      exact ⟨x :: inner, rfl, rfl, rfl⟩
    | startUnlessEqual direction =>
      obtain ⟨rfl, x, rfl⟩ | ⟨ht, rfl⟩ := h
      · exact ⟨x :: inner, rfl, .inl ⟨rfl, rfl⟩⟩
      · exact ⟨inner, rfl, .inr ⟨ht, rfl⟩⟩
    | next => exact advances htaken h
    | nextBy =>
      obtain ⟨step, ha⟩ := h
      exact advances htaken ha
    | leave =>
      obtain ⟨ht, x, hl⟩ := h
      obtain ⟨inner', rfl, hn⟩ := dropped htaken hl
      exact ⟨inner', rfl, ht, hn⟩
    | unloop =>
      obtain ⟨rfl, x, hl⟩ := h
      obtain ⟨inner', rfl, hn⟩ := dropped htaken hl
      exact ⟨inner', rfl, rfl, hn⟩

/-- A call of a word goes on right behind itself, once it is over. -/
theorem Op.goes_of_callee? {op : Op} {word : Nat} (h : (op.callee? word).isSome = true)
    (i n : Nat) : op.Goes i n (i + 1) n := by
  cases op with
  | callBuiltin _ | callWord _ | recurse => exact ⟨rfl, rfl⟩
  | _ => cases h

/-- From `lo` up to `hi` control keeps to the levels and goes on up to `hi`, and at least `n` loops
are open that no instruction takes. -/
def Code.KeepsTo (code : Code) (level : Nat → Nat) (n lo hi : Nat) : Prop :=
  ∀ i, lo ≤ i → i < hi → ∃ x, code[i]? = some x ∧ x.op ≠ .exit ∧ n + x.op.loopsTaken ≤ level i ∧
    ∀ j m, x.op.Goes i (level i) j m → lo ≤ j ∧ j ≤ hi ∧ level j = m

theorem Code.Encloses.exists_level {code : Code} {n lo hi : Nat}
    (h : code.Encloses n (fun _ => False) lo hi) :
    ∃ level : Nat → Nat, level lo = n ∧ level hi = n ∧ code.KeepsTo level n lo hi := by
  obtain ⟨-, level, hlo, hhi, hall⟩ := h
  refine ⟨level, hlo, hhi, fun i hi hi' => ?_⟩
  obtain ⟨x, hx, hexit, htaken, hgoes⟩ := hall i hi hi'
  exact ⟨x, hx, hexit, htaken, fun j m hg => (hgoes j m hg).resolve_right fun h => h.1⟩

namespace Session

/-- Steps that all succeed lead from `s` to `t`, and before `t` there is no session with `P`. -/
inductive OnWay (P : Session → Prop) (s : Session) : Session → Prop
  | start : OnWay P s s
  | step {t u : Session} (h : OnWay P s t) (hP : ¬ P t) (hu : Action.step t = .ok () u) :
    OnWay P s u

/-- The word of the frame `g` stands at instruction `i`, with `depth` calls in flight. -/
structure StandsAt (g : CallFrame) (depth i : Nat) (s : Session) : Prop where
  frame : s.frame = some { g with next := i }
  callDepth : s.callDepth = depth

theorem StandsAt.unique {g : CallFrame} {depth i j : Nat} {s : Session} (hi : s.StandsAt g depth i)
    (hj : s.StandsAt g depth j) : i = j :=
  congrArg CallFrame.next (Option.some.inj (hi.frame.symm.trans hj.frame))

end Session

variable {g : CallFrame} {level : Nat → Nat} {n lo hi : Nat} {outer : List LoopFrame}
  {below : List ReturnItem}

/-- The return stack while control is at instruction `j` of a stretch of code that starts and ends
at level `n`: the loops of the stretch lie above `outer`, and from the nearest marker on nothing has
changed. -/
structure InStretch (level : Nat → Nat) (n lo hi : Nat) (outer : List LoopFrame)
    (below : List ReturnItem) (j : Nat) (items : List ReturnItem) : Prop where
  lo_le : lo ≤ j
  le_hi : j ≤ hi
  loops : ∃ inner, loopsOf items = inner ++ outer ∧ n + inner.length = level j
  marker : fromMarker items = below

/-- The word of the frame `g` is in a stretch of its code, or waits there for a word that it has
called. -/
inductive Session.Inside (g : CallFrame) (level : Nat → Nat) (n lo hi : Nat)
    (outer : List LoopFrame) (below : List ReturnItem) (s : Session) : Prop
  | runs {j : Nat} (frame : s.frame = some { g with next := j })
    (h : InStretch level n lo hi outer below j s.returns.items)
  | waits {j : Nat} {items : List ReturnItem} (h : InStretch level n lo hi outer below j items)
    (hw : Within (fun _ _ => True) (some { g with next := j }) items s)

namespace Session

variable {s t : Session}

theorem followed_true : Followed fun _ _ => True :=
  ⟨fun _ => trivial, fun _ _ _ => trivial⟩

/-- A step keeps control inside, up to the end of the stretch. -/
theorem Inside.step (hcode : g.code.KeepsTo level n lo hi)
    (hs : s.Inside g level n lo hi outer below) (hend : ¬ s.StandsAt g (markers below) hi)
    (h : Action.step s = .ok () t) : t.Inside g level n lo hi outer below := by
  cases hs with
  | waits hj hw =>
    rcases (hw.step followed_true h).2 with hw | hback
    · exact .waits hj hw
    · exact .runs hback.frame (hback.items.symm ▸ hj)
  | @runs j hf hj =>
    have hlt : j < hi := by
      refine Nat.lt_of_le_of_ne hj.le_hi fun hjhi => hend ⟨hjhi ▸ hf, ?_⟩
      rw [callDepth, ← markers_fromMarker, hj.marker]
    obtain ⟨x, hx, hexit, htaken, hgoes⟩ := hcode j hj.lo_le hlt
    obtain ⟨inner, hloops, hlevel⟩ := hj.loops
    obtain ⟨y, hy, hp⟩ := proceeds_step hf h
    obtain rfl : x = y := Option.some.inj (hx.symm.trans hy)
    cases hp with
    | goesOn hf' hbelow hshifts =>
      rw [hloops] at hshifts
      obtain ⟨inner', hloops', hg⟩ := hshifts.above n (by omega)
      obtain ⟨hlo, hhi, hm⟩ := hgoes _ _ (hlevel ▸ hg)
      exact .runs hf' ⟨hlo, hhi, ⟨inner', hloops', hm.symm⟩, hbelow.marker.trans hj.marker⟩
    | calls hc hr hop =>
      obtain ⟨hlo, hhi, hm⟩ := hgoes _ _ (Op.goes_of_callee? hop j (level j))
      exact .waits ⟨hlo, hhi, ⟨inner, hloops, hm ▸ hlevel⟩, hj.marker⟩ (hc.within followed_true)
    | leaves hop hl => exact (hexit hop).elim

theorem Inside.onWay (hcode : g.code.KeepsTo level n lo hi)
    (hs : s.Inside g level n lo hi outer below)
    (h : OnWay (StandsAt g (markers below) hi) s t) : t.Inside g level n lo hi outer below := by
  induction h with
  | start => exact hs
  | step h hP hu ih => exact ih.step hcode hP hu

/-- In the call itself control is in the stretch. -/
theorem Inside.inStretch (hs : s.Inside g level n lo hi outer below)
    (hd : s.callDepth = markers below) :
    ∃ j, s.frame = some { g with next := j } ∧
      InStretch level n lo hi outer below j s.returns.items := by
  cases hs with
  | runs hf hj => exact ⟨_, hf, hj⟩
  | waits hj hw =>
    have := hw.callDepth
    rw [← markers_fromMarker, hj.marker] at this
    omega

/-- On the way through a stretch of code the loops from before it stay open, whenever control is in
the call itself.  At the end there are no others. -/
theorem loops_of_onWay {depth : Nat} (hcode : g.code.Encloses n (fun _ => False) lo hi)
    (hs : s.StandsAt g depth lo) (h : OnWay (StandsAt g depth hi) s t) (hd : t.callDepth = depth) :
    fromMarker t.returns.items = fromMarker s.returns.items ∧
      (∃ inner, loopsOf t.returns.items = inner ++ loopsOf s.returns.items) ∧
      (t.StandsAt g depth hi → loopsOf t.returns.items = loopsOf s.returns.items) := by
  have hle := hcode.1
  obtain ⟨level, hlo, hhi, hkeeps⟩ := hcode.exists_level
  obtain rfl : markers (fromMarker s.returns.items) = depth :=
    (markers_fromMarker _).trans hs.callDepth
  have hstart : s.Inside g level n lo hi (loopsOf s.returns.items) (fromMarker s.returns.items) :=
    .runs hs.frame ⟨Nat.le_refl _, hle, ⟨[], rfl, hlo.symm⟩, rfl⟩
  obtain ⟨j, hf, hj⟩ := (hstart.onWay hkeeps h).inStretch hd
  obtain ⟨inner, hloops, hlevel⟩ := hj.loops
  refine ⟨hj.marker, ⟨inner, hloops⟩, fun hend => ?_⟩
  obtain rfl : j = hi := StandsAt.unique ⟨hf, hend.callDepth⟩ hend
  have hnone : inner = [] := List.eq_nil_of_length_eq_zero (by omega)
  rw [hloops, hnone, List.nil_append]

end Session

end StackLang
