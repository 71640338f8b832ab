import Mathlib.Data.Nat.Find
import StackLang.Proofs.Call.Passes
import StackLang.Proofs.Call.Running

/-!
# Counted loops

A counted loop with a known step makes a pass for the bound that it starts from, and one for each
further value short of the other bound, also where the next value would not fit into 64 bits.
Whatever the body does in a pass, `I` is the value of the pass.

* `loopValue`, `ShortOfEnd`: the values of a loop, which may be any integers.
* `LoopFrame.Counts.stepped`: stepping a loop goes on with the next value, or ends it.
* `Session.exists_turn`: what the end of a loop does behind a pass.
* `LoopRun`: a run of a loop, with its passes.
* `LoopRun.Starts.turn`, `LoopRun.Starts.exists_ended`: what one pass leads to, and what all do.
* `Definition.counted_passes`: the passes of a loop in any definition that is accepted.
-/

namespace StackLang

open Action ReturnStack

/-! ## The values of a loop -/

/-- The value of the index in pass `k` of a loop that counts by `n` between `a` and `b`. -/
def loopValue (a b n : Int) (k : Nat) : Int :=
  (if n < 0 then max a b else min a b) + k * n

/-- Does the value lie short of the end of the loop? -/
def ShortOfEnd (a b n x : Int) : Prop :=
  if n < 0 then min a b < x else x < max a b

instance (a b n x : Int) : Decidable (ShortOfEnd a b n x) :=
  inferInstanceAs (Decidable (if n < 0 then min a b < x else x < max a b))

theorem loopValue_succ (a b n : Int) (k : Nat) :
    loopValue a b n (k + 1) = loopValue a b n k + n := by
  unfold loopValue
  rw [Int.natCast_succ, Int.add_mul, Int.one_mul, Int.add_assoc]

/-- A loop with a step comes to an end. -/
theorem exists_not_shortOfEnd {n : Int} (a b : Int) (hn : n ≠ 0) :
    ∃ k, ¬ ShortOfEnd a b n (loopValue a b n (k + 1)) := by
  refine ⟨(max a b - min a b).toNat, ?_⟩
  unfold ShortOfEnd loopValue
  rw [Int.natCast_succ, Int.toNat_of_nonneg (by omega)]
  generalize hm : max a b - min a b = m
  split
  · have := Int.mul_le_mul_of_nonneg_left (show n ≤ -1 by omega) (show 0 ≤ m + 1 by omega)
    omega
  · have := Int.mul_le_mul_of_nonneg_left (show 1 ≤ n by omega) (show 0 ≤ m + 1 by omega)
    omega

/-- So there is a last pass: the first value that does not lie short of the end comes behind it. -/
theorem exists_lastPass {n : Int} (a b : Int) (hn : n ≠ 0) :
    ∃ k, ¬ ShortOfEnd a b n (loopValue a b n (k + 1)) ∧
      ∀ i, 0 < i → i ≤ k → ShortOfEnd a b n (loopValue a b n i) := by
  have h := exists_not_shortOfEnd a b hn
  refine ⟨Nat.find h, Nat.find_spec h, fun i hi hik => ?_⟩
  obtain ⟨j, rfl⟩ := Nat.exists_eq_succ_of_ne_zero (Nat.ne_of_gt hi)
  exact Decidable.of_not_not (Nat.find_min h hik)

theorem toInt_stepIndex (index step : Int64) : (stepIndex index step).toInt =
    max (-9223372036854775808) (min 9223372036854775807 (index.toInt + step.toInt)) := by
  rw [stepIndex, Int64.toInt_minValue, Int64.toInt_maxValue, Int64.toInt_ofInt_of_le] <;> omega

/-- The frame of a loop that counts by `n` between `a` and `b`, in pass `k`. -/
structure LoopFrame.Counts (a b n : Int) (k : Nat) (x : LoopFrame) : Prop where
  index : x.index.toInt = loopValue a b n k
  limit : x.limit.toInt = if n < 0 then min a b else max a b

/-- Counting down a loop starts at the larger of its bounds, counting up at the smaller one. -/
theorem counts_loopBounds (a b n : Int64) :
    (loopBounds (if n < 0 then .descending else .ascending) b a).Counts
      a.toInt b.toInt n.toInt 0 := by
  unfold loopBounds
  by_cases hn : n.toInt < 0
  · rw [if_pos (Int64.lt_iff_toInt_lt.2 hn)]
    dsimp only
    split
    · rename_i h
      rw [Int64.lt_iff_toInt_lt] at h
      exact ⟨by simp only [loopValue, if_pos hn]; omega, by simp only [if_pos hn]; omega⟩
    · rename_i h
      rw [Int64.lt_iff_toInt_lt] at h
      exact ⟨by simp only [loopValue, if_pos hn]; omega, by simp only [if_pos hn]; omega⟩
  · rw [if_neg fun h => hn (Int64.lt_iff_toInt_lt.1 h)]
    dsimp only
    split
    · rename_i h
      rw [Int64.lt_iff_toInt_lt] at h
      exact ⟨by simp only [loopValue, if_neg hn]; omega, by simp only [if_neg hn]; omega⟩
    · rename_i h
      rw [Int64.lt_iff_toInt_lt] at h
      exact ⟨by simp only [loopValue, if_neg hn]; omega, by simp only [if_neg hn]; omega⟩

theorem loopBounds_eq_iff (direction : LoopDirection) (a b : Int64) :
    (loopBounds direction b a).index = (loopBounds direction b a).limit ↔ a = b := by
  cases direction <;>
  · dsimp only [loopBounds]
    split
    · exact Iff.rfl
    · exact eq_comm

/-- The loop goes on exactly if the next value lies short of the end, and then it is the index.  At
the ends of the 64-bit range the index stops, and so does the loop. -/
theorem LoopFrame.Counts.stepped {a b : Int} {n : Int64} {k : Nat} {x : LoopFrame}
    (h : x.Counts a b n.toInt k) :
    (loopContinues (x.stepped n) n = true ↔
        ShortOfEnd a b n.toInt (loopValue a b n.toInt (k + 1))) ∧
      (loopContinues (x.stepped n) n = true → (x.stepped n).Counts a b n.toInt (k + 1)) := by
  have hindex : (x.stepped n).index.toInt = _ := toInt_stepIndex x.index n
  have hlimit := h.limit
  have hlo := x.limit.le_toInt
  have hhi := x.limit.toInt_lt
  have hlo' := x.index.le_toInt
  have hhi' := x.index.toInt_lt
  rw [loopValue_succ, ← h.index, ShortOfEnd, loopContinues,
    show (x.stepped n).limit = x.limit from rfl]
  by_cases hn : n.toInt < 0
  · rw [if_pos (Int64.lt_iff_toInt_lt.2 hn), if_pos hn, decide_eq_true_iff, Int64.lt_iff_toInt_lt]
    rw [if_pos hn] at hlimit
    refine ⟨by omega, fun hgoes => ⟨?_, h.limit⟩⟩
    rw [loopValue_succ, ← h.index]
    omega
  · rw [if_neg fun h => hn (Int64.lt_iff_toInt_lt.1 h), if_neg hn, decide_eq_true_iff,
      Int64.lt_iff_toInt_lt]
    rw [if_neg hn] at hlimit
    refine ⟨by omega, fun hgoes => ⟨?_, h.limit⟩⟩
    rw [loopValue_succ, ← h.index]
    omega

/-! ## The instructions of a loop -/

namespace Session

variable {s t u v : Session} {g : CallFrame} {depth i : Nat} {l : Option Location}

theorem cancelled_of_step (h : Action.step s = .ok () t) :
    s.cancelled = false ∧ t.cancelled = false := by
  cases hc : s.cancelled with
  | true =>
    rw [step_of_cancelled hc] at h
    cases h
  | false =>
    obtain ⟨u, sources, hu, rfl⟩ := exists_of_step h
    have hlast : Lasting fun u => u.cancelled = false :=
      ⟨fun _ h => h, fun _ h => h, fun _ h => h, fun _ h => h, fun _ h => h⟩
    have ha := hlast.congruence.alike_operation (fun _ _ h => h) (fun _ _ h => h) hc
    rw [hu] at ha
    cases ha with
    | ok _ h => exact ⟨rfl, h.2⟩

/-- A step of a word is what its instruction does. -/
theorem step_of_runOp {f f' : CallFrame} {x : Instruction} (hc : s.cancelled = false)
    (hf : s.frame = some f) (hx : f.code[f.next]? = some x)
    (h : runOp f x.op { s with
      frame := some { f with next := f.next + 1 }
      location := x.location.or s.location } = .ok () t)
    (ht : t.frame = some f') : Action.step s = .ok () t := by
  rw [step_of_running hc, bind_apply, operation_of_frame hf, runInstruction_eq hx, h]
  exact dropUsedSources_of_frame ht

/-- What a step has done that leaves the calls and the flag to stop alone. -/
structure GoesTo (g : CallFrame) (depth i : Nat) (stack : DataStack) (returns : ReturnStack)
    (s t : Session) : Prop where
  step : Action.step s = .ok () t
  standsAt : t.StandsAt g depth i
  stack : t.stack = stack
  returns : t.returns = returns

theorem exists_goesTo {x : Instruction} {j : Nat} {stack : DataStack} {returns : ReturnStack}
    (hs : s.StandsAt g depth i) (hc : s.cancelled = false) (hx : g.code[i]? = some x)
    (hmarkers : markers returns.items = markers s.returns.items)
    (h : ∀ w : Session, w.frame = some { g with next := i + 1 } → w.stack = s.stack →
      w.returns = s.returns → runOp { g with next := i } x.op w =
        .ok () { w with stack, returns, frame := some { g with next := j } }) :
    ∃ t, GoesTo g depth j stack returns s t := by
  refine ⟨_, step_of_runOp hc hs.frame hx (h _ rfl rfl rfl) rfl, ⟨rfl, ?_⟩, rfl, rfl⟩
  exact hmarkers.trans hs.callDepth

theorem exists_push {v : Value} (hs : s.StandsAt g depth i) (hc : s.cancelled = false)
    (hx : g.code[i]? = some ⟨l, .push v⟩) :
    ∃ t, GoesTo g depth (i + 1) (v :: s.stack) s.returns s t := by
  refine exists_goesTo hs hc hx rfl fun w hf hstack hr => ?_
  obtain ⟨⟩ := w
  cases hf
  cases hstack
  cases hr
  rfl

/-- `I` pushes the index of the innermost loop. -/
theorem exists_loopIndex {n : Nat} {x : LoopFrame} (hs : s.StandsAt g depth i)
    (hc : s.cancelled = false) (hx : g.code[i]? = some ⟨l, .loopIndex n⟩)
    (hl : s.returns.loop? n = some x) :
    ∃ t, GoesTo g depth (i + 1) (.int x.index :: s.stack) s.returns s t := by
  refine exists_goesTo hs hc hx rfl fun w hf hstack hr => ?_
  unfold runOp
  dsimp only
  rw [get_bind, hr, hl]
  obtain ⟨⟩ := w
  cases hf
  cases hstack
  cases hr
  rfl

/-- A branch is taken or not as the flag on top says. -/
theorem exists_branchIfFalse {v : Value} {flag : Bool} {rest : DataStack} {j : Nat}
    (hs : s.StandsAt g depth i) (hc : s.cancelled = false)
    (hx : g.code[i]? = some ⟨l, .branchIfFalse (some j)⟩) (hj : j < g.code.size)
    (hstack : s.stack = v :: rest) (hflag : v.flag? = some flag) :
    ∃ t, GoesTo g depth (if flag then i + 1 else j) rest s.returns s t := by
  refine exists_goesTo hs hc hx rfl fun w hf hw hr => ?_
  have hpop : operands .popFlag w = .ok flag { w with stack := rest } := by
    refine operands_ok ?_
    rw [hw, hstack]
    show Operand.expect "flag" v v.flag? rest = _
    rw [hflag]
    rfl
  show (operands .popFlag >>= fun flag => if !flag then jump (some j) else pure ()) w = _
  rw [bind_apply, hpop, ← hr]
  cases flag with
  | true =>
    rw [if_pos rfl, ← hf]
    rfl
  | false =>
    have hjump := jump_inside (s := { w with stack := rest }) hf hj
    exact hjump

theorem popInt_cons {v : Value} {n : Int64} {rest : DataStack} (h : v.int? = some n) :
    Operand.popInt (v :: rest) = .ok n rest := by
  show Operand.expect "integer" v v.int? rest = _
  rw [h]
  rfl

theorem popBounds_eq {start limit : Value} {a b : Int64} {rest : DataStack}
    (direction : LoopDirection) (hstack : s.stack = start :: limit :: rest)
    (hb : start.int? = some b) (ha : limit.int? = some a) :
    popBounds direction s = .ok (loopBounds direction b a) { s with stack := rest } := by
  refine operands_ok ?_
  rw [hstack, bind_apply, Operand.require_of_le (by simp)]
  dsimp only
  rw [bind_apply, popInt_cons hb]
  dsimp only
  rw [bind_apply, popInt_cons ha]
  rfl

/-- Opening a loop, unless its bounds are equal and it asks for that. -/
theorem exists_opened {start limit : Value} {a b : Int64} {rest : DataStack} {query : Bool}
    {direction : LoopDirection} {behind : Nat} (hs : s.StandsAt g depth i)
    (hc : s.cancelled = false)
    (hx : g.code[i]? = some ⟨l, .loop
      (if query then .startUnlessEqual direction else .start direction) (some behind)⟩)
    (hstack : s.stack = start :: limit :: rest) (hb : start.int? = some b)
    (ha : limit.int? = some a) (hroom : s.returns.items.length < s.returns.limit)
    (hgoes : query = true → a ≠ b) :
    ∃ t returns, GoesTo g depth (i + 1) rest returns s t ∧
      returns.items = .loop (loopBounds direction b a) :: s.returns.items := by
  obtain ⟨returns, hr⟩ := Option.isSome_iff_exists.1 ((isSome_push? s.returns
    (.loop (loopBounds direction b a))).trans (decide_eq_true hroom))
  have hi := items_of_push? hr
  have hmarkers : markers returns.items = markers s.returns.items := by
    rw [hi]
    rfl
  suffices h : ∃ t, GoesTo g depth (i + 1) rest returns s t from
    h.imp fun t ht => ⟨returns, ht, hi⟩
  refine exists_goesTo hs hc hx hmarkers fun w hf hw hr' => ?_
  have hpop := popBounds_eq direction (hw.trans hstack) hb ha
  have hpush : pushReturn (.loop (loopBounds direction b a)) { w with stack := rest } =
      .ok () { w with stack := rest, returns } := by
    unfold pushReturn
    rw [show ({ w with stack := rest } : Session).returns = s.returns from hr', hr]
  rw [show ({ w with stack := rest, returns, frame := some { g with next := i + 1 } } : Session) =
    { w with stack := rest, returns } by rw [← hf]]
  cases query with
  | false =>
    show (popBounds direction >>= fun x => pushReturn (.loop x)) w = _
    rw [bind_apply, hpop]
    exact hpush
  | true =>
    show (popBounds direction >>= fun x => if x.index = x.limit then jump (some behind)
      else pushReturn (.loop x)) w = _
    rw [bind_apply, hpop]
    dsimp only
    rw [if_neg fun h => hgoes rfl ((loopBounds_eq_iff ..).1 h)]
    exact hpush

/-- A loop over equal bounds is skipped if it asks for that. -/
theorem exists_skipped {start limit : Value} {a : Int64} {rest : DataStack}
    {direction : LoopDirection} {behind : Nat} (hs : s.StandsAt g depth i)
    (hc : s.cancelled = false)
    (hx : g.code[i]? = some ⟨l, .loop (.startUnlessEqual direction) (some behind)⟩)
    (hbehind : behind < g.code.size) (hstack : s.stack = start :: limit :: rest)
    (hb : start.int? = some a) (ha : limit.int? = some a) :
    ∃ t, GoesTo g depth behind rest s.returns s t := by
  refine exists_goesTo hs hc hx rfl fun w hf hw hr => ?_
  show (popBounds direction >>= fun x => if x.index = x.limit then jump (some behind)
    else pushReturn (.loop x)) w = _
  rw [bind_apply, popBounds_eq direction (hw.trans hstack) hb ha]
  dsimp only
  rw [if_pos ((loopBounds_eq_iff ..).2 rfl), jump_inside (s := { w with stack := rest }) hf hbehind,
    ← hr]

theorem advanceLoop_eq {f : CallFrame} {x : LoopFrame} {n : Int64} {first : Nat}
    (hf : s.frame = some f) (hfirst : first < f.code.size) (hx : s.returns.loop? 0 = some x) :
    advanceLoop n (some first) s = if loopContinues (x.stepped n) n then .ok () { s with
        returns := s.returns.replaceLoop (x.stepped n)
        frame := some { f with next := first } }
      else .ok () { s with returns := (s.returns.popLoop?.map (·.2)).getD s.returns } := by
  unfold advanceLoop
  rw [get_bind, hx]
  dsimp only
  rw [show ({ x with index := stepIndex x.index n } : LoopFrame) = x.stepped n from rfl]
  split
  · exact jump_inside (s := { s with returns := s.returns.replaceLoop (x.stepped n) }) hf hfirst
  · rfl

/-- Stepping the innermost loop. -/
theorem exists_advanced {x : LoopFrame} {outer : List LoopFrame} {op : Op} {n : Int64}
    {first : Nat} (rest : DataStack) (hs : s.StandsAt g depth i) (hc : s.cancelled = false)
    (hx : g.code[i]? = some ⟨l, op⟩) (hfirst : first < g.code.size)
    (hloops : loopsOf s.returns.items = x :: outer)
    (hop : ∀ (f : CallFrame) (w : Session), w.stack = s.stack →
      runOp f op w = advanceLoop n (some first) { w with stack := rest }) :
    ∃ t, if loopContinues (x.stepped n) n then
        GoesTo g depth first rest (s.returns.replaceLoop (x.stepped n)) s t
      else ∃ returns, s.returns.popLoop? = some (x, returns) ∧
        GoesTo g depth (i + 1) rest returns s t := by
  have hx0 : s.returns.loop? 0 = some x := by
    show (loopsOf s.returns.items)[0]? = _
    rw [hloops]
    rfl
  cases hcontinues : loopContinues (x.stepped n) n with
  | true =>
    obtain ⟨t, ht⟩ : ∃ t, GoesTo g depth first rest (s.returns.replaceLoop (x.stepped n)) s t :=
      exists_goesTo hs hc hx (markers_congr (fromMarker_setLoop _ _)) fun w hf hw hr => by
        rw [hop _ w hw, advanceLoop_eq (s := { w with stack := rest }) hf hfirst
          (show w.returns.loop? 0 = some x from hr ▸ hx0), if_pos hcontinues, ← hr]
    exact ⟨t, ht⟩
  | false =>
    obtain ⟨returns, hr⟩ := exists_popLoop?_of_loop? hx0
    obtain ⟨t, ht⟩ : ∃ t, GoesTo g depth (i + 1) rest returns s t :=
      exists_goesTo hs hc hx (markers_congr (fromMarker_takeLoop? (takeLoop?_of_popLoop? hr).1))
        fun w hf hw hr' => by
        rw [hop _ w hw, advanceLoop_eq (s := { w with stack := rest }) hf hfirst
          (show w.returns.loop? 0 = some x from hr' ▸ hx0), if_neg (by simp [hcontinues]), ← hf]
        dsimp only
        rw [hr', hr]
        rfl
    exact ⟨t, returns, hr, ht⟩

/-- As many steps as `count` that all succeed. -/
inductive Steps : (count : Nat) → Session → Session → Prop
  | nil {s : Session} : Steps 0 s s
  | cons {count : Nat} {s t u : Session} (h : Action.step s = .ok () t) (hu : Steps count t u) :
    Steps (count + 1) s u

/-- There is one way to go on. -/
theorem Steps.unique {count : Nat} (h : Steps count s t) (h' : Steps count s u) : u = t := by
  induction h with
  | nil =>
    cases h'
    rfl
  | cons h _ ih =>
    cases h' with
    | cons h' hu =>
      rw [h] at h'
      cases h'
      exact ih hu

/-- The end of a pass: the loop is stepped and goes back to its first instruction, or it is dropped,
and control goes on behind it. -/
theorem exists_turn {query : Bool} {e : LoopEnd} {level start last : Nat} {n : Int64}
    {x : LoopFrame} {outer : List LoopFrame} (hcode : g.code.Counted query e level start last)
    (hs : s.StandsAt g depth last) (hc : s.cancelled = false) (hn : e.step? = some n)
    (hloops : loopsOf s.returns.items = x :: outer) :
    ∃ t, Steps e.words.length s t ∧ if loopContinues (x.stepped n) n then
        t.StandsAt g depth (start + 1) ∧ t.returns = s.returns.replaceLoop (x.stepped n)
      else t.StandsAt g depth (last + e.words.length) ∧
        s.returns.popLoop? = some (x, t.returns) := by
  have hfirst : start + 1 < g.code.size :=
    Nat.lt_of_le_of_lt hcode.body.1 (Nat.lt_of_le_of_lt (Nat.le_add_right ..) hcode.behind_lt)
  cases e with
  | loop l =>
    cases hn
    obtain ⟨t, ht⟩ := exists_advanced (n := 1) s.stack hs hc (hcode.closing 0 _ rfl) hfirst hloops
      fun f w hw => by rw [← hw]; rfl
    refine ⟨t, ?_⟩
    split at ht
    · rename_i hcontinues
      rw [if_pos hcontinues]
      exact ⟨.cons ht.step .nil, ht.standsAt, ht.returns⟩
    · rename_i hcontinues
      obtain ⟨returns, hr, ht⟩ := ht
      rw [if_neg hcontinues]
      exact ⟨.cons ht.step .nil, ht.standsAt, ht.returns ▸ hr⟩
  | plusLoop l₁ v l₂ =>
    obtain ⟨u, hu⟩ := exists_push hs hc (hcode.closing 0 _ rfl)
    obtain ⟨t, ht⟩ := exists_advanced (n := n) s.stack hu.standsAt (cancelled_of_step hu.step).2
      (hcode.closing 1 _ rfl) hfirst (hu.returns ▸ hloops) fun f w hw => by
        have hpop : operands .popInt w = .ok n { w with stack := s.stack } :=
          operands_ok (by rw [hw, hu.stack]; exact popInt_cons hn)
        show (operands .popInt >>= fun step => advanceLoop step (some (start + 1))) w = _
        rw [bind_apply, hpop]
    refine ⟨t, ?_⟩
    rw [hu.returns] at ht
    split at ht
    · rename_i hcontinues
      rw [if_pos hcontinues]
      exact ⟨.cons hu.step (.cons ht.step .nil), ht.standsAt, ht.returns⟩
    · rename_i hcontinues
      obtain ⟨returns, hr, ht⟩ := ht
      rw [if_neg hcontinues]
      exact ⟨.cons hu.step (.cons ht.step .nil), ht.standsAt, ht.returns ▸ hr⟩

theorem cancelled_of_onWay {P : Session → Prop} (h : OnWay P s t) (hs : s.cancelled = false) :
    t.cancelled = false := by
  cases h with
  | start => exact hs
  | step _ _ hu => exact (cancelled_of_step hu).2

theorem cancelled_of_steps {count : Nat} (h : Steps count s t) (hs : s.cancelled = false) :
    t.cancelled = false := by
  induction h with
  | nil => exact hs
  | cons h _ ih => exact ih (cancelled_of_step h).2

end Session

/-! ## The passes -/

/-- A run of a counted loop, in the call of a word. -/
structure LoopRun where
  /-- The frame of the word, wherever it stands. -/
  frame : CallFrame
  /-- The number of calls in flight while the word itself runs. -/
  depth : Nat
  ending : LoopEnd
  /-- The first instruction of the body. -/
  first : Nat
  /-- The instruction behind the body. -/
  last : Nat
  /-- The session in which the loop has been opened. -/
  opened : Session

namespace LoopRun

open Session

/-- The word stands at instruction `i`. -/
def At (r : LoopRun) (i : Nat) (s : Session) : Prop :=
  s.StandsAt r.frame r.depth i

/-- The instruction behind the loop. -/
def behind (r : LoopRun) : Nat :=
  r.last + r.ending.words.length

/-- Passes have led to a session, one after the other.  They have started in the sessions of the
list, at the first instruction of the body, and have come to its end; and the end of the loop has
followed. -/
inductive Passes (r : LoopRun) : List Session → Session → Prop
  | nil : Passes r [] r.opened
  | snoc {starts : List Session} {t u v : Session} (h : Passes r starts t) (ht : r.At r.first t)
    (hway : OnWay (r.At r.last) t u) (hu : r.At r.last u)
    (hv : Steps r.ending.words.length u v) : Passes r (starts ++ [t]) v

/-- Every pass that starts comes to the end of the body. -/
def AllPass (r : LoopRun) : Prop :=
  ∀ starts t, r.Passes starts t → r.At r.first t → ∃ u, OnWay (r.At r.last) t u ∧ r.At r.last u

/-- Every pass leaves the return stack as it found it. -/
def AllTidy (r : LoopRun) : Prop :=
  ∀ starts t u, r.Passes starts t → r.At r.first t → OnWay (r.At r.last) t u → r.At r.last u →
    u.returns.items = t.returns.items

/-- Pass `k` of a loop by `n` between `a` and `b` starts, and the loop lies on top of `base` as far
as the passes before it have been tidy. -/
structure Starts (r : LoopRun) (a b n : Int64) (base : List ReturnItem) (k : Nat) (x : LoopFrame)
    (t : Session) : Prop where
  atFirst : r.At r.first t
  running : t.cancelled = false
  loops : loopsOf t.returns.items = x :: loopsOf base
  counts : x.Counts a.toInt b.toInt n.toInt k
  marker : fromMarker t.returns.items = fromMarker base
  top : r.AllTidy → t.returns.items = .loop x :: base

/-- The loop on top of `base` is over, with nothing left of it as far as its passes have been
tidy. -/
structure Ended (r : LoopRun) (base : List ReturnItem) (t : Session) : Prop where
  atBehind : r.At r.behind t
  loops : loopsOf t.returns.items = loopsOf base
  marker : fromMarker t.returns.items = fromMarker base
  items : r.AllTidy → t.returns.items = base

variable {r : LoopRun} {query : Bool} {level p k : Nat} {a b n : Int64} {x : LoopFrame}
  {base : List ReturnItem} {starts : List Session} {t u v : Session}

/-- What lies on the return stack at the end of a pass. -/
theorem Starts.items_of_onWay
    (hcode : r.frame.code.Encloses level (fun _ => False) r.first r.last)
    (ht : r.Starts a b n base k x t) (h : r.Passes starts t) (hway : OnWay (r.At r.last) t u)
    (hu : r.At r.last u) :
    loopsOf u.returns.items = x :: loopsOf base ∧
      fromMarker u.returns.items = fromMarker base ∧
      (r.AllTidy → u.returns.items = .loop x :: base) := by
  obtain ⟨hmarker, -, hloops⟩ := loops_of_onWay hcode ht.atFirst hway hu.callDepth
  refine ⟨(hloops hu).trans ht.loops, hmarker.trans ht.marker, fun htidy => ?_⟩
  exact (htidy starts t u h ht.atFirst hway hu).trans (ht.top htidy)

/-- On the way of a pass `I` pushes the value of the pass, wherever no loop of the body is open. -/
theorem Starts.yields (hcode : r.frame.code.Encloses level (fun _ => False) r.first r.last)
    (ht : r.Starts a b n base k x t) (h : OnWay (r.At r.last) t u) (hd : u.callDepth = r.depth)
    (hopen : u.returns.openLoops = (loopsOf base).length + 1) :
    u.returns.loop? 0 = some x ∧ ∀ j l, r.At j u → r.frame.code[j]? = some ⟨l, .loopIndex 0⟩ →
      ∃ v, Action.step u = .ok () v ∧ v.stack = .int x.index :: u.stack := by
  obtain ⟨-, ⟨inner, hinner⟩, -⟩ := loops_of_onWay hcode ht.atFirst h hd
  have hnone : inner = [] := by
    refine List.eq_nil_of_length_eq_zero ?_
    have hlength := congrArg List.length hinner
    rw [List.length_append, ht.loops, List.length_cons] at hlength
    unfold openLoops at hopen
    omega
  have hx : u.returns.loop? 0 = some x := by
    show (loopsOf u.returns.items)[0]? = _
    rw [hinner, hnone, ht.loops]
    rfl
  refine ⟨hx, fun j l hu hj => ?_⟩
  obtain ⟨v, hv⟩ := exists_loopIndex hu (cancelled_of_onWay h ht.running) hj hx
  exact ⟨v, hv.step, hv.stack⟩

section

variable (hcode : r.frame.code.Counted query r.ending level p r.last) (hfirst : r.first = p + 1)
  (hn : r.ending.step? = some n)
include hcode hfirst hn

theorem Starts.exists_turn (ht : r.Starts a b n base k x t) (h : r.Passes starts t)
    (hway : OnWay (r.At r.last) t u) (hu : r.At r.last u) :
    ∃ v, Steps r.ending.words.length u v := by
  obtain ⟨hloops, -, -⟩ := ht.items_of_onWay (hfirst ▸ hcode.body) h hway hu
  obtain ⟨v, hv, -⟩ :=
    Session.exists_turn hcode hu (cancelled_of_onWay hway ht.running) hn hloops
  exact ⟨v, hv⟩

/-- Behind a pass the next one starts, or the loop is over. -/
theorem Starts.turn (ht : r.Starts a b n base k x t) (h : r.Passes starts t)
    (hway : OnWay (r.At r.last) t u) (hu : r.At r.last u)
    (hv : Steps r.ending.words.length u v) :
    if ShortOfEnd a.toInt b.toInt n.toInt (loopValue a.toInt b.toInt n.toInt (k + 1)) then
      ∃ y, r.Starts a b n base (k + 1) y v
    else r.Ended base v := by
  obtain ⟨hloops, hmarker, htop⟩ := ht.items_of_onWay (hfirst ▸ hcode.body) h hway hu
  have hrunning := cancelled_of_onWay hway ht.running
  obtain ⟨w, hw, hends⟩ := Session.exists_turn hcode hu hrunning hn hloops
  obtain rfl := hv.unique hw
  obtain ⟨hiff, hcounts⟩ := ht.counts.stepped
  by_cases hshort :
      ShortOfEnd a.toInt b.toInt n.toInt (loopValue a.toInt b.toInt n.toInt (k + 1))
  · rw [if_pos (hiff.2 hshort), ← hfirst] at hends
    obtain ⟨hstands, hreturns⟩ := hends
    rw [if_pos hshort]
    refine ⟨x.stepped n, hstands, cancelled_of_steps hv hrunning, ?_, hcounts (hiff.2 hshort), ?_,
      fun htidy => ?_⟩
    · rw [hreturns]
      exact loopsOf_setLoop hloops _
    · rw [hreturns]
      exact (fromMarker_setLoop _ _).trans hmarker
    · rw [hreturns]
      exact congrArg (setLoop (x.stepped n)) (htop htidy)
  · rw [if_neg fun h => hshort (hiff.1 h)] at hends
    obtain ⟨hstands, hreturns⟩ := hends
    rw [if_neg hshort]
    have htake := (takeLoop?_of_popLoop? hreturns).1
    refine ⟨hstands, ?_, (fromMarker_takeLoop? htake).trans hmarker, fun htidy => ?_⟩
    · exact (List.cons.inj ((loopsOf_takeLoop? htake).symm.trans hloops)).2
    · rw [htop htidy] at htake
      exact (Prod.mk.inj (Option.some.inj htake)).2.symm

omit hn in
theorem Ended.not_at_first (h : r.Ended base t) : ¬ r.At r.first t := fun ht => by
  have hle := hcode.body.1
  have hbehind : r.first = r.last + r.ending.words.length := ht.unique h.atBehind
  have hpos : 0 < r.ending.words.length := by cases r.ending <;> exact Nat.succ_pos _
  omega

/-- Every pass starts with the value that is its turn. -/
theorem Passes.all_start (hs : r.Starts a b n base 0 x r.opened) (h : r.Passes starts t) :
    (∀ (i : Nat) (u : Session), starts[i]? = some u → ∃ y, r.Starts a b n base i y u) ∧
      (r.At r.first t → ∃ y, r.Starts a b n base starts.length y t) := by
  induction h with
  | nil => exact ⟨fun i u hu => by simp at hu, fun _ => ⟨x, hs⟩⟩
  | @snoc starts t u v h ht hway hu hv ih =>
    obtain ⟨y, hy⟩ := ih.2 ht
    constructor
    · intro i w hw
      rcases Nat.lt_or_ge i starts.length with hi | hi
      · rw [List.getElem?_append_left hi] at hw
        exact ih.1 i w hw
      · rw [List.getElem?_append_right hi] at hw
        obtain ⟨hzero, rfl⟩ : i - starts.length = 0 ∧ t = w := by
          simpa [List.getElem?_singleton] using hw
        obtain rfl : i = starts.length := by omega
        exact ⟨y, hy⟩
    · intro hstands
      have hturn := hy.turn hcode hfirst hn h hway hu hv
      split at hturn
      · rw [List.length_append]
        exact hturn
      · exact (hturn.not_at_first hcode hfirst hstands).elim

/-- As long as the values lie short of the end, one pass follows the other. -/
theorem Starts.exists_passes (hs : r.Starts a b n base 0 x r.opened) (hpass : r.AllPass)
    (hshort : ∀ i, 0 < i → i ≤ k →
      ShortOfEnd a.toInt b.toInt n.toInt (loopValue a.toInt b.toInt n.toInt i)) :
    ∃ starts t, r.Passes starts t ∧ starts.length = k ∧ r.At r.first t := by
  induction k with
  | zero => exact ⟨[], r.opened, .nil, rfl, hs.atFirst⟩
  | succ k ih =>
    obtain ⟨starts, t, h, rfl, hstands⟩ := ih fun i hi hik => hshort i hi (Nat.le_succ_of_le hik)
    obtain ⟨y, ht⟩ := (h.all_start hcode hfirst hn hs).2 hstands
    obtain ⟨u, hway, hu⟩ := hpass starts t h hstands
    obtain ⟨v, hv⟩ := ht.exists_turn hcode hfirst hn h hway hu
    have hturn := ht.turn hcode hfirst hn h hway hu hv
    rw [if_pos (hshort (starts.length + 1) (Nat.succ_pos _) (Nat.le_refl _))] at hturn
    obtain ⟨z, hz⟩ := hturn
    exact ⟨starts ++ [t], v, h.snoc hstands hway hu hv, List.length_append, hz.atFirst⟩

/-- A loop whose passes all come to their end is over after the last value that lies short of its
end, or after the first pass. -/
theorem Starts.exists_ended (hs : r.Starts a b n base 0 x r.opened) (hpass : r.AllPass)
    (hne : n ≠ 0) :
    ∃ starts t, r.Passes starts t ∧ r.Ended base t ∧ 0 < starts.length ∧
      (∀ i, 0 < i → i < starts.length →
        ShortOfEnd a.toInt b.toInt n.toInt (loopValue a.toInt b.toInt n.toInt i)) ∧
      ¬ ShortOfEnd a.toInt b.toInt n.toInt
        (loopValue a.toInt b.toInt n.toInt starts.length) := by
  obtain ⟨k, hend, hshort⟩ := exists_lastPass a.toInt b.toInt fun h : n.toInt = 0 =>
    hne (Int64.toInt_inj.1 h)
  obtain ⟨starts, t, h, rfl, hstands⟩ := hs.exists_passes hcode hfirst hn hpass hshort
  obtain ⟨y, ht⟩ := (h.all_start hcode hfirst hn hs).2 hstands
  obtain ⟨u, hway, hu⟩ := hpass starts t h hstands
  obtain ⟨v, hv⟩ := ht.exists_turn hcode hfirst hn h hway hu
  have hturn := ht.turn hcode hfirst hn h hway hu hv
  rw [if_neg hend] at hturn
  have hlength : (starts ++ [t]).length = starts.length + 1 := List.length_append
  exact ⟨starts ++ [t], v, h.snoc hstands hway hu hv, hturn, by omega,
    fun i hi hi' => hshort i hi (by omega), hlength ▸ hend⟩

end

/-- Opening a loop leads to its first pass, unless the bounds are equal and it asks for that. -/
theorem exists_starts {g : CallFrame} {depth last : Nat} {e : LoopEnd} {s : Session}
    {start limit : Value} {rest : DataStack} (hcode : g.code.Counted query e level p last)
    (hn : e.step? = some n) (hs : s.StandsAt g depth p) (hc : s.cancelled = false)
    (hstack : s.stack = start :: limit :: rest) (hb : start.int? = some b)
    (ha : limit.int? = some a) (hroom : s.returns.items.length < s.returns.limit)
    (hskip : ¬ (query = true ∧ a = b)) :
    ∃ t x, Action.step s = .ok () t ∧
      Starts ⟨g, depth, e, p + 1, last, t⟩ a b n s.returns.items 0 x t := by
  obtain ⟨l, hopening⟩ := hcode.opening
  obtain ⟨t, returns, ht, hitems⟩ := exists_opened hs hc hopening hstack hb ha hroom
    fun hquery hab => hskip ⟨hquery, hab⟩
  rw [LoopEnd.direction_eq hn, ← ht.returns] at hitems
  exact ⟨t, _, ht.step, ht.standsAt, (cancelled_of_step ht.step).2, by rw [hitems]; rfl,
    counts_loopBounds a b n, by rw [hitems]; rfl, fun _ => hitems⟩

end LoopRun

namespace Definition

open Session

/-- A loop that counts by a literal step, or by one, in any definition that is accepted.  No word of
its body leaves it but at the end.  Over equal bounds `?DO` goes on right behind the loop.  Else, if
every pass comes to the end of the body, there is a first pass, and one for each further value short
of the end; then control goes on behind the loop, and its frame is gone.  In each pass the index is
the value of the pass, and `I` pushes it wherever no other loop of the body is open. -/
theorem counted_passes {pre body post : List (Option Location × BodyWord)} {l : Option Location}
    {query : Bool} {e : LoopEnd} {n : Int64} {word level : Nat} {name : String}
    {location : Location} {code : Code} {d : Definition}
    (hok : (do build (pre ++ (l, .control (if query then .openQueryDo else .openDo)) ::
        (body ++ (e.words ++ post))); finish : Edit (Except Breach Code))
      (opened word name location) = .ok (.ok code) d)
    (hbody : WellNested level (body.map Prod.snd)) (hin : ∀ x ∈ body, x.2.staysInside = true)
    (hn : e.step? = some n) (hne : n ≠ 0) {s : Session} {g : CallFrame} {start limit : Value}
    {a b : Int64} {rest : DataStack} (hcode : g.code = code)
    (hs : s.StandsAt g s.callDepth (BodyWord.instructions pre)) (hc : s.cancelled = false)
    (hstack : s.stack = start :: limit :: rest) (hb : start.int? = some b)
    (ha : limit.int? = some a) (hroom : s.returns.items.length < s.returns.limit) :
    let first := BodyWord.instructions pre + 1
    let run (opened : Session) : LoopRun :=
      ⟨g, s.callDepth, e, first, first + BodyWord.instructions body, opened⟩
    let value := loopValue a.toInt b.toInt n.toInt
    let short (k : Nat) := ShortOfEnd a.toInt b.toInt n.toInt (value k)
    (query = true ∧ a = b →
      ∃ t, Action.step s = .ok () t ∧ (run t).At (run t).behind t ∧ t.returns = s.returns) ∧
    (¬ (query = true ∧ a = b) → (∀ t, Action.step s = .ok () t → (run t).AllPass) →
      ∃ s₁ starts t, Action.step s = .ok () s₁ ∧ (run s₁).At first s₁ ∧
        (run s₁).Passes starts t ∧ (run s₁).At (run s₁).behind t ∧
        loopsOf t.returns.items = loopsOf s.returns.items ∧
        fromMarker t.returns.items = fromMarker s.returns.items ∧
        ((run s₁).AllTidy → t.returns.items = s.returns.items) ∧
        0 < starts.length ∧ (∀ k, 0 < k → k < starts.length → short k) ∧
        ¬ short starts.length ∧
        ∀ (k : Nat) (u : Session), starts[k]? = some u → ∃ i : Int64, i.toInt = value k ∧
          ∀ v, OnWay ((run s₁).At (run s₁).last) u v → v.callDepth = s.callDepth →
            v.returns.openLoops = s.returns.openLoops + 1 →
            (v.returns.loop? 0).map (·.index) = some i ∧
            ∀ j l, (run s₁).At j v → code[j]? = some ⟨l, .loopIndex 0⟩ →
              ∃ w, Action.step v = .ok () w ∧ w.stack = .int i :: v.stack) := by
  intro first run value short
  subst hcode
  have hcounted := counted_of_accepted hok hbody hin
  refine ⟨fun ⟨hquery, hab⟩ => ?_, fun hskip hpass => ?_⟩
  · subst hquery hab
    obtain ⟨l', hopening⟩ := hcounted.opening
    obtain ⟨t, ht⟩ := exists_skipped hs hc hopening hcounted.behind_lt hstack hb ha
    exact ⟨t, ht.step, ht.standsAt, ht.returns⟩
  · obtain ⟨s₁, y, hs₁, hstart⟩ :=
      LoopRun.exists_starts hcounted hn hs hc hstack hb ha hroom hskip
    obtain ⟨starts, t, ht, hended, hpos, hshort, hend⟩ :=
      hstart.exists_ended hcounted rfl hn (hpass s₁ hs₁) hne
    refine ⟨s₁, starts, t, hs₁, hstart.atFirst, ht, hended.atBehind, hended.loops,
      hended.marker, hended.items, hpos, hshort, hend, fun k u hu => ?_⟩
    obtain ⟨x, hx⟩ := (ht.all_start hcounted rfl hn hstart).1 k u hu
    refine ⟨x.index, hx.counts.index, fun v hv hd hopen => ?_⟩
    obtain ⟨htop, hyields⟩ := hx.yields hcounted.body hv hd hopen
    exact ⟨by rw [htop]; rfl, hyields⟩

/-- The running word with the operands and the room that it has. -/
def standing? (s : Session) : Option (CallFrame × DataStack × List ReturnItem × Nat × Bool) :=
  s.frame.map (·, s.stack, s.returns.items, s.returns.limit, s.cancelled)

/-- A pass of the body `I IF THEN` takes the flag that it has pushed, and nothing is left of it. -/
theorem allPass_of_index_if {r : LoopRun} {l₁ l₂ : Option Location} {query : Bool} {level : Nat}
    {a b n : Int64} {base : List ReturnItem} {x : LoopFrame}
    (hcode : r.frame.code.Counted query r.ending level 0 r.last) (hfirst : r.first = 1)
    (hlast : r.last = 3) (hn : r.ending.step? = some n)
    (hindex : r.frame.code[1]? = some ⟨l₁, .loopIndex 0⟩)
    (hif : r.frame.code[2]? = some ⟨l₂, .branchIfFalse (some 3)⟩)
    (hs : r.Starts a b n base 0 x r.opened) : r.AllPass := by
  intro starts t h ht
  obtain ⟨y, hy⟩ := (h.all_start hcode hfirst hn hs).2 ht
  have hy0 : t.returns.loop? 0 = some y := by
    show (loopsOf t.returns.items)[0]? = _
    rw [hy.loops]
    rfl
  have hbehind := hcode.behind_lt
  obtain ⟨u, hu⟩ := exists_loopIndex (hfirst ▸ ht) hy.running hindex hy0
  obtain ⟨v, hv⟩ := exists_branchIfFalse hu.standsAt (cancelled_of_step hu.step).2 hif (by omega)
    hu.stack (show Value.flag? (.int y.index) = some (y.index != 0) from rfl)
  have hv3 : r.At r.last v := by
    have := hv.standsAt
    rw [ite_self] at this
    exact hlast ▸ this
  refine ⟨v, .step (.step .start (fun h => ?_) hu.step) (fun h => ?_) hv.step, hv3⟩
  · have := ht.unique h
    omega
  · have := hu.standsAt.unique h
    omega

/-- At the upper end of the 64-bit range a loop by 3 makes two passes, although the third value
does not fit. -/
theorem counted_passes_upToMax :
    let place (column : Nat) : Option Location := some ⟨inputPath, 1, column⟩
    let body : List (Option Location × BodyWord) := [(place 8, .control .index),
      (place 10, .control .openIf), (place 13, .control .closeThen)]
    let e : LoopEnd := .plusLoop (place 18) (.int 3) (place 20)
    let code : Code := #[⟨place 5, .loop (.start .ascending) (some 5)⟩, ⟨place 8, .loopIndex 0⟩,
      ⟨place 10, .branchIfFalse (some 3)⟩, ⟨place 18, .push (.int 3)⟩,
      ⟨place 20, .loop .nextBy (some 1)⟩, ⟨none, .exit⟩]
    let g : CallFrame := ⟨96, "W", code, 0⟩
    let moves := Move.enqueue inputPath
      ": W DO I IF THEN 3 +LOOP ; 9223372036854775807 9223372036854775802 W" ::
        List.replicate 11 .step
    (∃ d, (do build ((place 5, .control .openDo) :: (body ++ e.words)); finish :
        Edit (Except Breach Code)) (opened 96 "W" ⟨inputPath, 1, 3⟩) = .ok (.ok code) d) ∧
      ∃ s s₁ starts t, play moves (ofConfig .standard) = .ok s ∧ s.StandsAt g s.callDepth 0 ∧
      s.stack = [.int 9223372036854775802, .int 9223372036854775807] ∧
      Action.step s = .ok () s₁ ∧
      let run : LoopRun := ⟨g, s.callDepth, e, 1, 3, s₁⟩
      run.AllPass ∧ run.Passes starts t ∧ run.At 5 t ∧ starts.length = 2 ∧
        ∀ (k : Nat) (u : Session), starts[k]? = some u → ∃ i : Int64,
          i.toInt = 9223372036854775802 + k * 3 ∧
          (u.returns.loop? 0).map (·.index) = some i := by
  intro place body e code g moves
  have hok : (do build ([] ++ (place 5, .control (if false then .openQueryDo else .openDo)) ::
        (body ++ (e.words ++ []))); finish : Edit (Except Breach Code))
      (opened 96 "W" ⟨inputPath, 1, 3⟩) =
        .ok (.ok code) { opened 96 "W" ⟨inputPath, 1, 3⟩ with code := #[] } := by
    simp [body, e, code, LoopEnd.words, build, bind_apply, BodyWord.compileStep,
      ControlWord.compileStep, opened, emit_discard_eq, compileDo_eq, compileLoop_eq, finish_eq,
      compileIf_eq, compileThen_eq, compileLoopIndex_eq, loopDepth, Code.retargetAll, Code.settle,
      Code.retarget, settleLoop, stepDirection, Value.int?, Value.number?, strayTarget?,
      Op.target?, Op.setTarget, Construct.isCounted]
  have hrun : (play moves (ofConfig .standard)).toOption.bind standing? =
      some (g, [.int 9223372036854775802, .int 9223372036854775807], [.call none], 4096,
        false) := by
    rw [play, show Move.run (.enqueue inputPath
      ": W DO I IF THEN 3 +LOOP ; 9223372036854775807 9223372036854775802 W")
      (ofConfig .standard) = .ok () { ofConfig .standard with
        sources := [] ++ [.ofSource inputPath
          ": W DO I IF THEN 3 +LOOP ; 9223372036854775807 9223372036854775802 W"] } from rfl]
    rw [Pending.ofSource_eq 80 (by decide)]
    decide +kernel
  have hbody : WellNested 1 (body.map Prod.snd) :=
    .cons (.index (Nat.le_refl _)) (.cons (x := [_, _]) (.ifThen .nil) .nil)
  have hin : ∀ x ∈ body, x.2.staysInside = true := by decide
  obtain ⟨s, hs, hrun⟩ := Option.bind_eq_some_iff.1 hrun
  obtain ⟨f, hf, heq⟩ := Option.map_eq_some_iff.1 hrun
  simp only [Prod.mk.injEq] at heq
  obtain ⟨rfl, hstack, hitems, hlimit, hc⟩ := heq
  have hstands : s.StandsAt g s.callDepth 0 := ⟨hf, rfl⟩
  have hroom : s.returns.items.length < s.returns.limit := by
    rw [hitems, hlimit]
    decide
  have hskip : ¬ (false = true ∧ (9223372036854775807 : Int64) = 9223372036854775802) :=
    fun h => Bool.false_ne_true h.1
  have hcounted := counted_of_accepted hok hbody hin
  obtain ⟨s₁, x, hs₁, hstart⟩ :=
    LoopRun.exists_starts hcounted rfl hstands hc hstack rfl rfl hroom hskip
  have hpass (t : Session) (ht : Action.step s = .ok () t) :
      LoopRun.AllPass ⟨g, s.callDepth, e, 1, 3, t⟩ := by
    rw [hs₁] at ht
    cases ht
    exact allPass_of_index_if hcounted rfl rfl rfl rfl rfl hstart
  obtain ⟨t, starts, u, ht, -, hpasses, hbehind, -, -, -, hpos, hshort, hend, hall⟩ :=
    (counted_passes hok hbody hin (n := 3) rfl (by decide) rfl hstands hc hstack rfl rfl hroom).2
      hskip hpass
  cases hs₁.symm.trans ht
  have hle : starts.length ≤ 2 :=
    Nat.le_of_not_lt fun h => absurd (hshort 2 (by decide) h) (by decide)
  have hone : starts.length ≠ 1 := fun h => hend (by rw [h]; decide)
  refine ⟨⟨_, hok⟩, s, s₁, starts, u, eq_ok_of_toOption hs, hstands, hstack, hs₁, hpass s₁ hs₁,
    hpasses, hbehind, by omega, fun k v hv => ?_⟩
  obtain ⟨i, hi, hyields⟩ := hall k v hv
  obtain ⟨y, hy⟩ := (hpasses.all_start hcounted rfl rfl hstart).1 k v hv
  refine ⟨i, hi, (hyields v .start hy.atFirst.callDepth ?_).1⟩
  exact congrArg List.length hy.loops

end Definition

end StackLang
