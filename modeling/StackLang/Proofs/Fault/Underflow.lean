import StackLang.Proofs.Fault.Operands

/-!
# Too few values

A word that counts its operands before it takes the first leaves the stack as it was when there are
too few.  `PICK` and `ROLL` do not: how many values they need is their first operand, and that is
gone when the others are counted.

* `Operand.Enough`: how many values it takes for no lack of values to be found.
* `Operand.Loses`: how many values are gone when a lack of values is found.
* `Operand.loses_stackWord`, `Operand.loses_mathWord`: the words on the stack alone.
-/

namespace StackLang

/-- The fault is a lack of values. -/
def OperandFault.Lack : OperandFault → Prop
  | .underflow _ _ => True
  | _ => False

theorem OperandFault.lack_of_cause {fault : OperandFault} {word word' : String}
    {needed available : Nat} (h : fault.cause word = .stackUnderflow word' needed available) :
    fault.Lack := by
  cases fault with
  | underflow needed available => trivial
  | _ => cases h

/-- How many values the word takes before it counts those that it needs. -/
def Builtin.uncounted : Builtin → Nat
  | .stack .pick | .stack .roll => 1
  | _ => 0

namespace Operand

variable {α β : Type} {n m k : Nat}

/-! ## Operands that are there -/

/-- With `n` values on the stack no lack of values is found, and `m` are left. -/
def Enough (n : Nat) (p : Operand α) (m : Nat) : Prop :=
  Triple (n ≤ ·.length) p (fun _ t => m ≤ t.length) fun fault _ => ¬ fault.Lack

theorem Enough.bind {p : Operand α} {q : α → Operand β} (hp : Enough n p m)
    (hq : ∀ a, Enough m (q a) k) : Enough n (p >>= q) k :=
  Triple.bind hp hq

theorem Enough.of_unfailing {p : Operand α} (h : Unfailing p) : Enough n p 0 := by
  intro s _
  obtain ⟨a, t, hp⟩ := h s
  rw [hp]
  exact Nat.zero_le _

theorem enough_pure (a : α) : Enough n (pure a : Operand α) n :=
  Triple.pure fun _ h => h

theorem enough_throw {fault : OperandFault} (h : ¬ fault.Lack) :
    Enough n (throw fault : Operand α) m :=
  fun _ _ => h

theorem enough_require (n : Nat) : Enough n (require n) n := by
  intro s hs
  rw [require_of_le hs]
  exact hs

theorem enough_pop : Enough (n + 1) pop n
  | [], h => absurd h (Nat.not_succ_le_zero n)
  | _ :: _, h => Nat.le_of_succ_le_succ h

theorem enough_expect (expected : String) (v : Value) (view : Option α) :
    Enough n (expect expected v view) n := by
  cases view with
  | some a => exact enough_pure a
  | none => exact enough_throw id

theorem enough_popInt : Enough (n + 1) popInt n :=
  enough_pop.bind fun _ => enough_expect _ _ _

theorem enough_popNumber : Enough (n + 1) popNumber n :=
  enough_pop.bind fun _ => enough_expect _ _ _

theorem enough_popString : Enough (n + 1) popString n := by
  refine enough_pop.bind fun v => ?_
  cases v with
  | string text => exact enough_pure text
  | _ => exact enough_throw id

/-- An address is one, or it is refused. -/
theorem enough_address (v : Value) : Enough n (match v with
    | .address a => pure a
    | .int i => if i < 0 then throw (.invalidAddress i) else pure i.toUInt64
    | v => throw (.mismatch "address" v.kind) : Operand UInt64) n := by
  cases v with
  | address a => exact enough_pure a
  | int i =>
    dsimp only
    split
    · exact enough_throw id
    · exact enough_pure _
  | _ => exact enough_throw id

theorem enough_popAddress : Enough (n + 1) popAddress n :=
  enough_pop.bind enough_address

theorem enough_popPair : Enough 2 popPair 0 :=
  (enough_require 2).bind fun _ => enough_pop.bind fun _ => enough_pop.bind fun _ => enough_pure _

theorem enough_numbers (x : Value × Value) : Enough n (do
    let m ← number x.1
    let n ← number x.2
    pure (m, n)) n :=
  (enough_expect _ _ _).bind fun _ => (enough_expect _ _ _).bind fun _ => enough_pure _

theorem enough_popNumbers : Enough 2 popNumbers 0 :=
  enough_popPair.bind enough_numbers

theorem enough_push (v : Value) : Enough n (push v) 0 :=
  .of_unfailing (unfailing_push v)

/-! ## Operands that are not there -/

/-- When a lack of values is found, the first `k` are gone. -/
def Loses (k : Nat) (p : Operand α) : Prop :=
  ∀ s, Triple (· = s) p (fun _ _ => True) fun fault t => fault.Lack → t = s.drop k

theorem Loses.of_unfailing {p : Operand α} (h : Unfailing p) : Loses k p := by
  rintro _ s rfl
  obtain ⟨a, t, hp⟩ := h s
  rw [hp]
  trivial

/-- Behind the operands nothing else may be lacking. -/
theorem Loses.bind {p : Operand α} {q : α → Operand β} (hp : Loses k p)
    (hq : ∀ a, Enough 0 (q a) 0) : Loses k (p >>= q) := by
  refine fun s => (hp s).bind fun a t _ => ?_
  have h := hq a t (Nat.zero_le _)
  revert h
  cases q a t with
  | ok b u => exact fun _ => trivial
  | error fault u => exact fun h hl => absurd hl h

/-- The operands are counted before any is taken. -/
theorem loses_require_bind {q : Unit → Operand α} (hq : Enough n (q ()) m) :
    Loses 0 (require n >>= q) := by
  rintro _ s rfl
  rw [bind_apply]
  by_cases hn : n ≤ s.length
  · rw [require_of_le hn]
    have h := hq s hn
    revert h
    dsimp only
    cases q () s with
    | ok b u => exact fun _ => trivial
    | error fault u => exact fun h hl => absurd hl h
  · rw [require_of_lt (Nat.lt_of_not_le hn)]
    exact fun _ => rfl

/-- From the empty stack nothing is taken. -/
theorem loses_pop : Loses 0 pop := by
  rintro _ s rfl
  cases s with
  | nil => exact fun _ => rfl
  | cons v s => trivial

theorem loses_popInt : Loses 0 popInt :=
  loses_pop.bind fun _ => enough_expect _ _ _

theorem loses_popNumber : Loses 0 popNumber :=
  loses_pop.bind fun _ => enough_expect _ _ _

theorem loses_popFlag : Loses 0 popFlag :=
  loses_pop.bind fun _ => enough_expect _ _ _

theorem loses_popAddress : Loses 0 popAddress :=
  loses_pop.bind enough_address

theorem loses_popPair : Loses 0 popPair :=
  loses_require_bind <| enough_pop.bind fun _ => enough_pop.bind fun _ => enough_pure _

theorem loses_popNumbers : Loses 0 popNumbers :=
  loses_popPair.bind enough_numbers

theorem loses_popDivision : Loses 0 popDivision := by
  refine loses_popNumbers.bind fun ⟨m, n⟩ => ?_
  dsimp only
  split
  · exact (enough_throw (m := 0) id).bind fun _ => enough_pure _
  · exact enough_pure _

/-- Three operands are counted and taken. -/
theorem loses_three {q : Value → Value → Value → Operand Unit} (hq : ∀ c b a, Unfailing (q c b a)) :
    Loses 0 (do
      require 3
      let c ← pop
      let b ← pop
      let a ← pop
      q c b a) :=
  loses_require_bind <| enough_pop.bind fun c => enough_pop.bind fun b => enough_pop.bind fun a =>
    .of_unfailing (hq c b a)

/-- Values are counted, and the stack is rearranged. -/
theorem loses_rearranged (n : Nat) (f : DataStack → DataStack) :
    Loses 0 (do require n; modify f) :=
  loses_require_bind <| .of_unfailing (Unfailing.modify f)

/-- A position is taken, whether it is one or not. -/
theorem taken_popPosition (s : DataStack) :
    Triple (· = s) popPosition (fun _ t => t = s.drop 1) fun _ t => t = s.drop 1 := by
  have hpop : Triple (· = s) pop (fun _ t => t = s.drop 1) fun _ t => t = s.drop 1 := by
    intro t ht
    subst ht
    cases t <;> rfl
  have hint : Triple (· = s) popInt (fun _ t => t = s.drop 1) fun _ t => t = s.drop 1 := by
    refine hpop.bind fun v => ?_
    unfold int
    cases v.int? with
    | some n => exact Triple.pure fun _ h => h
    | none => exact fun _ h => h
  refine hint.bind fun n => ?_
  dsimp only
  split
  · exact fun _ h => h
  · exact Triple.pure fun _ h => h

/-- A position is gone when the values above it are counted. -/
theorem loses_position {q : Nat → Operand Unit} (hq : ∀ n, Loses 0 (q n)) :
    Loses 1 (popPosition >>= q) := by
  intro s
  have htaken : Triple (· = s) popPosition (fun _ t => t = s.drop 1)
      fun fault t => fault.Lack → t = s.drop 1 :=
    (taken_popPosition s).weaken fun _ _ h _ => h
  refine htaken.bind fun n t ht => ?_
  have h := hq n t t rfl
  revert h
  rw [← ht]
  cases q n t with
  | ok a u => exact fun _ => trivial
  | error fault u => exact fun h => h

/-! ## Words on the stack alone -/

theorem loses_stackWord (w : StackWord) : Loses (Builtin.stack w).uncounted w.run := by
  cases w with
  | dup => exact loses_pop.bind fun a => .of_unfailing (unfailing_pushes a a)
  | drop => exact loses_pop.bind fun _ => enough_pure _
  | swap => exact loses_popPair.bind fun _ => .of_unfailing (unfailing_pushes _ _)
  | copySecond | tuck =>
    exact loses_popPair.bind fun _ => .of_unfailing <|
      (unfailing_push _).bind fun _ => unfailing_pushes _ _
  | rot | rotBack =>
    exact loses_three fun _ _ _ => (unfailing_push _).bind fun _ => unfailing_pushes _ _
  | nip => exact loses_popPair.bind fun _ => enough_push _
  | dupPair | dropPair | swapPair | overPair | dupNonzero => exact loses_rearranged _ _
  | depth => exact .of_unfailing fun s => ⟨(), _, rfl⟩
  | pick => exact loses_position fun n => loses_rearranged _ _
  | roll =>
    refine loses_position fun n => ?_
    split
    · exact .of_unfailing (Unfailing.pure ())
    · exact loses_rearranged _ _
  | clear => exact .of_unfailing (Unfailing.modify fun _ => [])

theorem loses_binary (ofInt : Int64 → Int64 → Int64) (ofFloat : Float → Float → Float) :
    Loses 0 (binary ofInt ofFloat) :=
  loses_popNumbers.bind fun _ => enough_push _

theorem loses_unary (ofInt : Int64 → Int64) (ofFloat : Float → Float) :
    Loses 0 (unary ofInt ofFloat) := by
  refine loses_popNumber.bind fun n => ?_
  cases n with
  | int n => exact enough_push _
  | float x => exact enough_push _

theorem loses_bits {q : Int64 → Int64 → Value × Value → Operand Unit}
    (hq : ∀ m n x, Unfailing (q m n x)) : Loses 0 (do
      let x ← popPair
      let m ← int x.1
      let n ← int x.2
      q m n x) :=
  loses_popPair.bind fun x => (enough_expect _ _ _).bind fun m =>
    (enough_expect _ _ _).bind fun n => .of_unfailing (hq m n x)

theorem enough_offsetAddress (a : UInt64) (offset : Int64) :
    Enough 0 (offsetAddress a offset) 0 := by
  unfold offsetAddress
  dsimp only
  split
  · exact (enough_throw (m := 0) id).bind fun _ => enough_push _
  · exact enough_push _

theorem enough_combined (a b : Value) (f : Number → Number → Value) : Enough 0 (do
    let m ← number a
    let n ← number b
    push (f m n)) 0 :=
  (enough_expect _ _ _).bind fun _ => (enough_expect _ _ _).bind fun _ => enough_push _

theorem loses_mathWord (w : MathWord) : Loses 0 w.run := by
  cases w with
  | add =>
    refine loses_popPair.bind fun x => ?_
    split
    · exact enough_offsetAddress _ _
    · exact enough_offsetAddress _ _
    · exact enough_combined _ _ _
  | subtract =>
    refine loses_popPair.bind fun x => ?_
    split
    · exact enough_offsetAddress _ _
    · exact enough_combined _ _ _
  | divide | mod => exact loses_popDivision.bind fun _ => enough_push _
  | divMod => exact loses_popDivision.bind fun _ => .of_unfailing (unfailing_pushes _ _)
  | scale =>
    refine loses_require_bind (m := 0) <| enough_popNumber.bind fun divisor =>
      enough_popNumbers.bind fun x => ?_
    split
    · dsimp only
      split
      · exact (enough_throw (m := 0) id).bind fun _ => enough_push _
      · exact enough_push _
    · dsimp only
      split
      · exact (enough_throw (m := 0) id).bind fun _ => enough_push _
      · exact enough_push _
  | multiply | min | max => exact loses_binary _ _
  | negate | abs | increment | decrement | addTwo | subtractTwo | double | halve =>
    exact loses_unary _ _
  | equal | notEqual => exact loses_popPair.bind fun _ => enough_push _
  | less | greater | lessEqual | greaterEqual => exact loses_popNumbers.bind fun _ => enough_push _
  | zeroEqual | zeroLess | zeroGreater | zeroNotEqual =>
    exact loses_popNumber.bind fun _ => enough_push _
  | and | or | xor => exact loses_bits fun _ _ _ => unfailing_push _
  | invert =>
    refine loses_pop.bind fun v => ?_
    cases v with
    | flag b => exact enough_push _
    | _ => exact (enough_expect _ _ _).bind fun _ => enough_push _
  | shiftLeft | shiftRight => exact loses_bits fun _ _ _ => unfailing_push _
  | pushTrue | pushFalse => exact .of_unfailing (unfailing_push _)
  | not => exact loses_popFlag.bind fun _ => enough_push _

end Operand

end StackLang
