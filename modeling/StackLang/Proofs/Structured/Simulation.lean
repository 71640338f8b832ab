import StackLang.Proofs.Structured.Instructions

/-!
# The code of a body

Wherever the code of a well-nested body stands, the machine that runs it mirrors the direct
evaluation of the body.  A loop takes at least one operation for each of its turns, so the machine
runs out of fuel whenever the evaluation does.

* `Lands`: where the machine stands when control has left a part of a body.
* `Block.mirrors_eval`: the code of a body, by induction on it.
* `Block.mirrors_evalWord`: a whole word, to the end of its call.
-/

namespace StackLang

open Action

variable {α β : Type} {f : CallFrame} {depth fuel p i start behind : Nat} {out : Target}
  {loops : List LoopFrame} {l : Option Location} {s t u : Session}

/-- Where the machine stands when control has left a part of a body: `behind` it, at the target
`out` of a `LEAVE`, or in the caller of the word. -/
def Lands (f : CallFrame) (depth : Nat) (loops : List LoopFrame) (behind : Nat) (out : Target) :
    Flow → Session → Session → Prop
  | .next => At f depth loops behind
  | .left => fun s t => ∃ i, out = some i ∧ At f depth loops.tail i s t
  | .exited => fun s t => t = s ∧ s.callDepth < depth

/-- Control that does not leave at the end goes the same way from every part of the body. -/
theorem Lands.of_ne_next {behind' : Nat} {flow : Flow} (hf : flow ≠ .next)
    (h : Lands f depth loops behind out flow s t) : Lands f depth loops behind' out flow s t := by
  cases flow with
  | next => exact (hf rfl).elim
  | left => exact h
  | exited => exact h

/-- A turn of a loop is over.  Unless the loop is over, too, the machine has just one operation to
go to its start. -/
def Turned (f : CallFrame) (depth : Nat) (loops : List LoopFrame) (start : Nat)
    (Q : Flow → Session → Session → Prop) : Option Flow → Session → Session → Prop
  | none => fun s t => Position f depth loops s ∧ Leads depth 1 t (s.goto f start)
  | some flow => Q flow

theorem Position.le_callDepth (h : Position f depth loops s) (p : Nat) :
    depth ≤ (s.goto f p).callDepth :=
  Nat.le_of_eq h.callDepth.symm

namespace Mirrors

variable {Q : α → Session → Session → Prop} {R : β → Session → Session → Prop}

/-- The instruction at the end of a turn.  It is still to be done where its result is looked at. -/
theorem closing {op : Op} {q : Action α} {k : α → Action β} (hs : Position f depth loops s)
    (hx : f.code[p]? = some ⟨l, op⟩)
    (hop : ∀ s t, At f depth loops (p + 1) s t → Matches Q (q s) (runOp { f with next := p } op t))
    (hk : ∀ a t u v, Q a t v → Leads depth 1 u v → Mirrors depth fuel u R (k a t)) :
    Mirrors depth fuel (s.goto f p) R ((do visit l; let a ← q; k a) s) := by
  have ho : Action.operation (s.goto f p) =
      runOp { f with next := p } op ((s.visited l).goto f (p + 1)) := by
    rw [Session.operation_of_frame (f := { f with next := p }) rfl, Session.runInstruction_eq hx]
    rfl
  have hm := hop _ _ ((hs.visited l).at (p + 1))
  show Mirrors depth fuel (s.goto f p) R ((q >>= k) (s.visited l))
  refine bind (operation (hs.le_callDepth p) hm ho) fun a t u h => ?_
  obtain ⟨v, hv, hl⟩ := h
  exact hk a t u v hv hl

theorem instruction {op : Op} {q : Action α} {k : α → Action β} (hs : Position f depth loops s)
    (hx : f.code[p]? = some ⟨l, op⟩)
    (hop : ∀ s t, At f depth loops (p + 1) s t → Matches Q (q s) (runOp { f with next := p } op t))
    (hk : ∀ a t v, Q a t v → Mirrors depth fuel v R (k a t)) :
    Mirrors depth fuel (s.goto f p) R ((do visit l; let a ← q; k a) s) :=
  closing hs hx hop fun a t _ v hv hl => behind hl (hk a t v hv)

theorem afterNext {q : Action Flow} {stop : Flow → β} {k : Action β}
    (hq : Mirrors depth fuel u (Lands f depth loops behind out) (q s))
    (hk : ∀ t, Position f depth loops t → Mirrors depth fuel (t.goto f behind) R (k t))
    (hstop : ∀ flow t u, flow ≠ .next → Lands f depth loops behind out flow t u →
      R (stop flow) t u) : Mirrors depth fuel u R (Action.afterNext q stop k s) := by
  refine bind hq fun flow t u h => ?_
  cases flow with
  | next =>
    obtain ⟨ht, rfl⟩ := h
    exact hk t ht
  | left => exact pure (hstop .left t u (by decide) h)
  | exited => exact pure (hstop .exited t u (by decide) h)

/-! ## Loops -/

/-- The branch back to the start of a loop. -/
theorem turnBack {Q : Flow → Session → Session → Prop} (hs : Position f depth loops s)
    (hx : f.code[p]? = some ⟨l, .branch (some start)⟩) (hstart : start < f.code.size) :
    Mirrors depth fuel (s.goto f p) (Turned f depth loops start Q)
      ((do visit l; Pure.pure none) s) := by
  refine closing (Q := fun _ => At f depth loops start) (q := Pure.pure ())
    (k := fun _ => Pure.pure none) hs hx (fun s t h => h.branch hstart (h.1.at start))
    fun _ t u v h hl => ?_
  obtain ⟨ht, rfl⟩ := h
  exact pure ⟨ht, hl⟩

theorem repeatTurns {turn : Action (Option Flow)} {turns : Nat}
    {Q : Flow → Session → Session → Prop}
    (hturn : ∀ s, Position f depth loops s →
      Mirrors depth fuel (s.goto f start) (Turned f depth loops start Q) (turn s))
    (hs : Position f depth loops s) (hle : turns ≤ fuel) :
    Mirrors depth turns (s.goto f start) Q (Action.repeatTurns turn turns s) := by
  induction turns generalizing s with
  | zero => exact stalls_zero (hs.le_callDepth start)
  | succ turns ih =>
    refine bind ((hturn s hs).less hle) fun flow t u h => ?_
    cases flow with
    | none =>
      obtain ⟨ht, hl⟩ := h
      exact after hl (ih ht (Nat.le_of_succ_le hle))
    | some flow => exact pure h

theorem countUp {body : LoopFrame → Action Flow} {turns : Nat} {x : LoopFrame}
    (hbody : ∀ x s, Position f depth (x :: loops) s → Mirrors depth fuel (s.goto f start)
      (Lands f depth (x :: loops) p (some (p + 1))) (body x s))
    (hx : f.code[p]? = some ⟨l, .loop .next (some start)⟩) (hstart : start < f.code.size)
    (hs : Position f depth (x :: loops) s) (hle : turns ≤ fuel) :
    Mirrors depth turns (s.goto f start) (Lands f depth loops (p + 1) out)
      (Action.countUp body l turns x s) := by
  induction turns generalizing s x with
  | zero => exact stalls_zero (hs.le_callDepth start)
  | succ turns ih =>
    refine bind ((hbody x s hs).less hle) fun flow t u h => ?_
    cases flow with
    | next =>
      obtain ⟨ht, rfl⟩ := h
      refine closing ht hx (fun s t h => h.countOn _ hstart) fun next t u v hv hl => ?_
      cases next with
      | some y =>
        obtain ⟨ht, rfl⟩ := hv
        exact after hl (ih ht (Nat.le_of_succ_le hle))
      | none => exact behind hl (pure hv)
    | left =>
      obtain ⟨i, hi, h⟩ := h
      cases hi
      exact pure h
    | exited => exact pure h

/-! ## Calls -/

/-- A call, and what the evaluation does about the word if it does not end within the call. -/
theorem call {op : Op} {rest : Action Unit} (hs : Position f depth loops s)
    (hx : f.code[p]? = some ⟨l, op⟩) (hop : runOp { f with next := p } op = Action.call i)
    (hover : ∀ t, Position f depth loops t → rest t = .ok () t)
    (hrun : ∀ t u below, Called f depth loops (p + 1) t u below →
      Mirrors (depth + 1) (fuel - 1) t (fun _ t u => u = t ∧ t.callDepth < depth + 1) (rest t)) :
    Mirrors depth fuel (s.goto f p) (fun _ => At f depth loops (p + 1))
      ((do Action.call i; rest) (s.visited l)) := by
  show Mirrors depth fuel (s.goto f p) _ ((do visit l; Action.call i; rest) s)
  refine closing hs hx (fun s t h => congrFun hop t ▸ h.call i) fun _ t u v hv hl => ?_
  rcases hv with h | ⟨below, h⟩
  · rw [hover t h.1]
    exact behind hl (pure h)
  · have hm := hrun t v below h
    obtain rfl := h.markers
    have hn := (nested h.beneath hm).mono fun _ t u hr => h.at hr
    exact (after hl hn).less (by omega)

/-- A call of another word, which runs on the machine in the evaluation, too. -/
theorem callAndRun {op : Op} (hs : Position f depth loops s) (hx : f.code[p]? = some ⟨l, op⟩)
    (hop : runOp { f with next := p } op = Action.call i) :
    Mirrors depth fuel (s.goto f p) (fun _ => At f depth loops (p + 1))
      (Action.callAndRun fuel i (s.visited l)) := by
  unfold Action.callAndRun
  rw [get_bind, (hs.visited l).callDepth]
  refine call hs hx hop (fun t ht => ?_) fun t u below _ => ?_
  · exact runWhile_of_lt (Nat.lt_succ_of_le (Nat.le_of_eq ht.callDepth)) fuel
  · exact (runWhile (depth + 1) fuel t).less (Nat.sub_le fuel 1)

/-- A call of the word itself. -/
theorem recurseWith {again : Action Unit} (hs : Position f depth loops s)
    (hx : f.code[p]? = some ⟨l, .recurse⟩)
    (hagain : ∀ g t, g.code = f.code → g.next = 0 → t.frame = some g →
      t.callDepth = depth + 1 → Mirrors (depth + 1) (fuel - 1) t
        (fun _ t u => u = t ∧ t.callDepth < depth + 1) (again t)) :
    Mirrors depth fuel (s.goto f p) (fun _ => At f depth loops (p + 1))
      (Action.recurseWith f fuel again (s.visited l)) := by
  unfold Action.recurseWith
  rw [get_bind, (hs.visited l).callDepth]
  refine call hs hx rfl (fun t ht => ?_) fun t u below h => ?_
  · rw [get_bind, if_neg fun h => Nat.lt_irrefl _ (ht.callDepth ▸ h.1)]
    exact runWhile_of_lt (Nat.lt_succ_of_le (Nat.le_of_eq ht.callDepth)) fuel
  · obtain ⟨index, name, code, hf⟩ := h.frame
    rw [get_bind]
    split
    · rename_i hc
      rw [hf] at hc
      exact hagain _ t (Option.some.inj hc.2) rfl hf h.callDepth
    · exact (runWhile (depth + 1) fuel t).less (Nat.sub_le fuel 1)

end Mirrors

/-! ## Bodies -/

namespace Block

variable {self : Action Unit}

/-- The machine mirrors the direct evaluation of a body, wherever the code of the body stands. -/
theorem mirrors_eval
    (hself : ∀ {loops s p l}, Position f depth loops s → f.code[p]? = some ⟨l, .recurse⟩ →
      Mirrors depth fuel (s.goto f p) (fun _ => At f depth loops (p + 1)) (self (s.visited l)))
    (b : Block) (hb : b.WellNested loops.length) (hs : Position f depth loops s)
    (hc : f.code.Holds start (b.instructions start out)) (hin : start + b.size < f.code.size)
    (hout : loops ≠ [] → ∃ i, out = some i ∧ i < f.code.size) :
    Mirrors depth fuel (s.goto f start) (Lands f depth loops (start + b.size) out)
      (b.eval fuel self f loops s) := by
  induction b generalizing start out loops s with
  | skip => exact Mirrors.pure (hs.at start)
  | seq a b iha ihb =>
    have hlen : start + (seq a b).size = start + a.size + b.size := (Nat.add_assoc ..).symm
    rw [hlen] at hin ⊢
    have hcb := hc.right
    rw [length_instructions] at hcb
    refine .afterNext (iha hb.1 hs hc.left (by omega) hout) (fun t ht => ?_)
      fun flow t u hf h => h.of_ne_next hf
    exact ihb hb.2 ht hcb hin hout
  | literal l v =>
    exact .instruction hs hc.head (fun s t h => h.push v) fun _ t u h => Mirrors.pure h
  | call l builtin i =>
    have hop : runOp { f with next := start } (if builtin then .callBuiltin i else .callWord i) =
        Action.call i := by
      cases builtin <;> rfl
    show Mirrors _ _ _ _ ((do Action.callAndRun fuel i; pure Flow.next) (s.visited l))
    exact .bind (.callAndRun hs hc.head hop) fun _ t u h => Mirrors.pure h
  | index l =>
    exact .instruction hs hc.head (fun s t h => h.pushIndex _ "I" hb) fun _ t u h => Mirrors.pure h
  | outerIndex l =>
    exact .instruction hs hc.head (fun s t h => h.pushIndex _ "J" hb) fun _ t u h => Mirrors.pure h
  | exit l =>
    exact .instruction hs hc.head (fun s t h => h.leaveWord start) fun _ t u h => Mirrors.pure h
  | recurse l =>
    show Mirrors _ _ _ _ ((do self; pure Flow.next) (s.visited l))
    exact .bind (hself hs hc.head) fun _ t u h => Mirrors.pure h
  | leave l =>
    cases loops with
    | nil => exact absurd hb (Nat.lt_irrefl 0)
    | cons x loops =>
      obtain ⟨i, rfl, hi⟩ := hout (List.cons_ne_nil x loops)
      exact .instruction hs hc.head (fun s t h => h.leave _ hi)
        fun _ t u h => Mirrors.pure ⟨i, rfl, h⟩
  | ifThen l a ih =>
    have hlen : start + (ifThen l a).size = start + 1 + a.size := by
      rw [size]
      omega
    rw [hlen] at hin ⊢
    refine .instruction hs hc.head (fun s t h => h.popFlag _ hin) fun flag t u h => ?_
    cases flag with
    | true =>
      obtain ⟨ht, rfl⟩ := h
      exact ih hb ht hc.tail hin hout
    | false => exact Mirrors.pure h
  | ifElse l a l' b iha ihb =>
    have hlen : start + (ifElse l a l' b).size = start + 1 + a.size + 1 + b.size := by
      rw [size]
      omega
    rw [hlen] at hin ⊢
    have hcb := hc.tail.right
    rw [length_instructions] at hcb
    refine .instruction hs hc.head (fun s t h => h.popFlag _ (by omega)) fun flag t u h => ?_
    cases flag with
    | true =>
      obtain ⟨ht, rfl⟩ := h
      refine .afterNext (iha hb.1 ht hc.tail.left (by omega) hout) (fun t ht => ?_)
        fun flow t u hf h => h.of_ne_next hf
      exact .instruction (Q := fun _ => At f depth loops _) (q := pure ())
        (k := fun _ => pure Flow.next) ht hcb.head (fun s t h => h.branch hin (h.1.at _))
        fun _ t u h => Mirrors.pure h
    | false =>
      obtain ⟨ht, rfl⟩ := h
      exact ihb hb.2 ht hcb.tail hin hout
  | untilLoop a l ih =>
    rw [size, ← Nat.add_assoc] at hin ⊢
    have hcl := hc.right
    rw [length_instructions] at hcl
    refine .repeatTurns (fun s hs => ?_) hs (Nat.le_refl fuel)
    refine .afterNext (ih hb hs hc.left (by omega) hout) (fun t ht => ?_)
      fun flow t u hf h => h.of_ne_next hf
    refine .closing ht hcl.head (fun s t h => h.popFlag _ (by omega)) fun flag t u v h hl => ?_
    cases flag with
    | true => exact .behind hl (Mirrors.pure h)
    | false =>
      obtain ⟨ht, rfl⟩ := h
      exact Mirrors.pure ⟨ht, hl⟩
  | again a l ih =>
    rw [size, ← Nat.add_assoc] at hin ⊢
    have hcl := hc.right
    rw [length_instructions] at hcl
    refine .repeatTurns (fun s hs => ?_) hs (Nat.le_refl fuel)
    refine .afterNext (ih hb hs hc.left (by omega) hout) (fun t ht => ?_)
      fun flow t u hf h => h.of_ne_next hf
    exact .turnBack ht hcl.head (by omega)
  | whileLoop a l b l' iha ihb =>
    have hlen : start + (whileLoop a l b l').size = start + a.size + 1 + b.size + 1 := by
      rw [size]
      omega
    rw [hlen] at hin ⊢
    have hcw := hc.right
    rw [length_instructions] at hcw
    have hcr := hcw.tail.right
    rw [length_instructions] at hcr
    refine .repeatTurns (fun s hs => ?_) hs (Nat.le_refl fuel)
    refine .afterNext (iha hb.1 hs hc.left (by omega) hout) (fun t ht => ?_)
      fun flow t u hf h => h.of_ne_next hf
    refine .instruction ht hcw.head (fun s t h => h.popFlag _ hin) fun flag t u h => ?_
    cases flag with
    | false => exact Mirrors.pure h
    | true =>
      obtain ⟨ht, rfl⟩ := h
      refine .afterNext (ihb hb.2 ht hcw.tail.left (by omega) hout) (fun t ht => ?_)
        fun flow t u hf h => h.of_ne_next hf
      exact .turnBack ht hcr.head (by omega)
  | counted query l a l' ih =>
    have hlen : start + (counted query l a l').size = start + 1 + a.size + 1 := by
      rw [size]
      omega
    rw [hlen] at hin ⊢
    have hcl := hc.tail.right
    rw [length_instructions] at hcl
    refine .instruction hs hc.head (fun s t h => h.openLoop _ query hin) fun bounds t u h => ?_
    cases bounds with
    | none => exact Mirrors.pure h
    | some x =>
      obtain ⟨ht, rfl⟩ := h
      refine .countUp (fun x s hs => ?_) hcl.head (by omega) ht (Nat.le_refl fuel)
      exact ih hb hs hc.tail.left (by omega) fun _ => ⟨_, rfl, hin⟩

/-- The machine mirrors the direct evaluation of a word that is about to run. -/
theorem mirrors_evalWord {b : Block} (hb : b.WellNested 0) (hf : s.frame = some f)
    (hcode : f.code = b.code) (hnext : f.next = 0) :
    Mirrors s.callDepth (fuel - 1) s (fun _ t u => u = t ∧ t.callDepth < s.callDepth)
      (b.evalWord fuel s) := by
  induction fuel generalizing s f with
  | zero => exact stalls_zero (Nat.le_refl s.callDepth)
  | succ fuel ih =>
    have hs : Position f s.callDepth [] s := ⟨hf, rfl, List.nil_prefix⟩
    have hgoto : s.goto f 0 = s := by
      rw [← hnext]
      show { s with frame := some f } = s
      rw [← hf]
    have hholds := b.holds_code
    have hsize := b.size_code
    rw [← hcode] at hholds hsize
    have hexit := hholds.right
    rw [length_instructions] at hexit
    have hbody : Mirrors s.callDepth fuel (s.goto f 0)
        (Lands f s.callDepth [] (0 + b.size) none)
        (b.eval fuel (recurseWith f fuel (b.evalWord fuel)) f [] s) :=
      b.mirrors_eval (fun hs hx => .recurseWith hs hx fun g t hg hn ht hd =>
        hd ▸ ih ht (hg.trans hcode) hn) hb hs hholds.left (by omega) fun h => (h rfl).elim
    rw [hgoto] at hbody
    rw [evalWord, get_bind, hf]
    refine .bind hbody fun flow t u h => ?_
    cases flow with
    | next =>
      obtain ⟨ht, rfl⟩ := h
      dsimp only
      rw [← bind_pure (leaveWord f)]
      exact .instruction ht hexit.head (fun s t h => h.leaveWord _) fun _ t u h => Mirrors.pure h
    | left =>
      obtain ⟨i, hi, -⟩ := h
      cases hi
    | exited => exact Mirrors.pure h

end Block

end StackLang
