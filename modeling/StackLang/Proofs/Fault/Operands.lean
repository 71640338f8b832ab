import StackLang.Proofs.Framework.Atomic
import StackLang.Word

/-!
# Operands that are lost

A word takes its operands from the top of the stack before it gives anything back, so when it fails
the stack is a lower part of what it was.

* `Shrunk`: what a word may do to the stack on the way to a failure.
* `atomic_stackWord`, `atomic_mathWord`: no word on the stack alone does anything else.
-/

namespace StackLang

/-- The second stack is a lower part of the first. -/
def Shrunk (s t : DataStack) : Prop :=
  t <:+ s

theorem Shrunk.refl (s : DataStack) : Shrunk s s :=
  List.suffix_refl s

theorem Shrunk.trans {s t u : DataStack} (h : Shrunk s t) (h' : Shrunk t u) : Shrunk s u :=
  List.IsSuffix.trans h' h

namespace Operand

variable {α β : Type}

/-! ## Taking operands -/

theorem sheds_bind {p : Operand α} {q : α → Operand β} (hp : Sheds Shrunk p)
    (hq : ∀ a, Sheds Shrunk (q a)) : Sheds Shrunk (p >>= q) :=
  Sheds.bind (U := Shrunk) Shrunk.trans hp hq

theorem sheds_pure (a : α) : Sheds Shrunk (pure a : Operand α) :=
  Sheds.pure Shrunk.refl a

theorem sheds_throw (fault : OperandFault) : Sheds Shrunk (throw fault : Operand α) :=
  Sheds.throw Shrunk.refl fault

theorem sheds_pop : Sheds Shrunk pop
  | [] => Shrunk.refl []
  | v :: s => List.suffix_cons v s

theorem sheds_require (n : Nat) : Sheds Shrunk (require n) := by
  intro s
  unfold require
  cases atLeast n s <;> exact Shrunk.refl s

theorem sheds_expect (expected : String) (v : Value) (view : Option α) :
    Sheds Shrunk (expect expected v view) := by
  cases view with
  | some a => exact sheds_pure a
  | none => exact sheds_throw _

theorem sheds_popInt : Sheds Shrunk popInt :=
  sheds_bind sheds_pop fun _ => sheds_expect _ _ _

theorem sheds_popNumber : Sheds Shrunk popNumber :=
  sheds_bind sheds_pop fun _ => sheds_expect _ _ _

theorem sheds_popFlag : Sheds Shrunk popFlag :=
  sheds_bind sheds_pop fun _ => sheds_expect _ _ _

theorem sheds_popString : Sheds Shrunk popString := by
  refine sheds_bind sheds_pop fun v => ?_
  cases v with
  | string text => exact sheds_pure text
  | _ => exact sheds_throw _

theorem sheds_popAddress : Sheds Shrunk popAddress := by
  refine sheds_bind sheds_pop fun v => ?_
  cases v with
  | address a => exact sheds_pure a
  | int n =>
    dsimp only
    split
    · exact sheds_throw _
    · exact sheds_pure _
  | _ => exact sheds_throw _

theorem sheds_popPair : Sheds Shrunk popPair :=
  sheds_bind (sheds_require 2) fun _ => sheds_bind sheds_pop fun _ =>
    sheds_bind sheds_pop fun _ => sheds_pure _

/-- Two operands, each taken in its own way. -/
theorem sheds_two {p : Operand α} {q : Operand β} (hp : Sheds Shrunk p) (hq : Sheds Shrunk q) :
    Sheds Shrunk (do
      require 2
      let a ← p
      let b ← q
      pure (a, b)) :=
  sheds_bind (sheds_require 2) fun _ => sheds_bind hp fun _ => sheds_bind hq fun _ => sheds_pure _

theorem sheds_popNumbers : Sheds Shrunk popNumbers :=
  sheds_bind sheds_popPair fun _ => sheds_bind (sheds_expect _ _ _) fun _ =>
    sheds_bind (sheds_expect _ _ _) fun _ => sheds_pure _

theorem sheds_popDivision : Sheds Shrunk popDivision := by
  refine sheds_bind sheds_popNumbers fun ⟨m, n⟩ => ?_
  dsimp only
  split
  · exact sheds_bind (sheds_throw _) fun _ => sheds_pure _
  · exact sheds_pure _

theorem sheds_popPosition : Sheds Shrunk popPosition := by
  refine sheds_bind sheds_popInt fun n => ?_
  dsimp only
  split
  · exact sheds_bind (sheds_throw _) fun _ => sheds_pure _
  · exact sheds_pure _

/-! ## Giving results -/

theorem unfailing_push (v : Value) : Unfailing (push v) :=
  fun s => ⟨(), v :: s, rfl⟩

theorem unfailing_pushes (v w : Value) : Unfailing (do push v; push w) :=
  (unfailing_push v).bind fun _ => unfailing_push w

/-- First the operands are taken, then the results are given. -/
theorem atomic_of {p : Operand α} {q : α → Operand β} (hp : Sheds Shrunk p)
    (hq : ∀ a, Unfailing (q a)) : Atomic Shrunk (p >>= q) :=
  hp.atomic.then_unfailing hq

theorem atomic_after {p : Operand α} {q : α → Operand β} (hp : Sheds Shrunk p)
    (hq : ∀ a, Atomic Shrunk (q a)) : Atomic Shrunk (p >>= q) :=
  Sheds.then_atomic (U := Shrunk) Shrunk.trans hp hq

theorem atomic_offsetAddress (a : UInt64) (offset : Int64) :
    Atomic Shrunk (offsetAddress a offset) := by
  unfold offsetAddress
  dsimp only
  split
  · exact atomic_of (sheds_throw _) fun _ => unfailing_push _
  · exact (unfailing_push _).atomic

theorem atomic_binary (ofInt : Int64 → Int64 → Int64) (ofFloat : Float → Float → Float) :
    Atomic Shrunk (binary ofInt ofFloat) :=
  atomic_of sheds_popNumbers fun _ => unfailing_push _

theorem atomic_unary (ofInt : Int64 → Int64) (ofFloat : Float → Float) :
    Atomic Shrunk (unary ofInt ofFloat) := by
  refine atomic_of sheds_popNumber fun n => ?_
  cases n with
  | int n => exact unfailing_push _
  | float x => exact unfailing_push _

theorem atomic_comparison (test : Ordering → Bool) : Atomic Shrunk (comparison test) :=
  atomic_of sheds_popNumbers fun _ => unfailing_push _

theorem atomic_zeroComparison (test : Ordering → Bool) : Atomic Shrunk (zeroComparison test) :=
  atomic_of sheds_popNumber fun _ => unfailing_push _

theorem atomic_bitwise (op : Int64 → Int64 → Int64) : Atomic Shrunk (bitwise op) :=
  atomic_after sheds_popPair fun _ => atomic_after (sheds_expect _ _ _) fun _ =>
    atomic_of (sheds_expect _ _ _) fun _ => unfailing_push _

theorem atomic_shift (op : UInt64 → UInt64 → UInt64) : Atomic Shrunk (shift op) :=
  atomic_after sheds_popPair fun _ => atomic_after (sheds_expect _ _ _) fun _ =>
    atomic_of (sheds_expect _ _ _) fun _ => unfailing_push _

/-! ## Words -/

theorem atomic_stackWord (w : StackWord) : Atomic Shrunk w.run := by
  have three {q : Value → Value → Value → Operand Unit} (hq : ∀ c b a, Unfailing (q c b a)) :
      Atomic Shrunk (do
        require 3
        let c ← pop
        let b ← pop
        let a ← pop
        q c b a) :=
    atomic_after (sheds_require 3) fun _ => atomic_after sheds_pop fun c =>
      atomic_after sheds_pop fun b => atomic_of sheds_pop fun a => hq c b a
  cases w with
  | dup => exact atomic_of sheds_pop fun _ => unfailing_pushes _ _
  | drop => exact (sheds_bind sheds_pop fun _ => sheds_pure ()).atomic
  | swap => exact atomic_of sheds_popPair fun _ => unfailing_pushes _ _
  | copySecond | tuck =>
    exact atomic_of sheds_popPair fun _ => (unfailing_push _).bind fun _ => unfailing_pushes _ _
  | rot | rotBack =>
    exact three fun _ _ _ => (unfailing_push _).bind fun _ => unfailing_pushes _ _
  | nip => exact atomic_of sheds_popPair fun _ => unfailing_push _
  | dupPair | dropPair | swapPair | overPair | dupNonzero =>
    exact atomic_of (sheds_require _) fun _ => Unfailing.modify _
  | depth => exact Atomic.view fun _ => (unfailing_push _).atomic
  | pick =>
    exact atomic_after sheds_popPosition fun _ => atomic_of (sheds_require _) fun _ =>
      Unfailing.modify _
  | roll =>
    refine atomic_after sheds_popPosition fun position => ?_
    split
    · exact (Unfailing.pure ()).atomic
    · exact atomic_of (sheds_require _) fun _ => Unfailing.modify _
  | clear => exact (Unfailing.modify fun _ => []).atomic

theorem atomic_mathWord (w : MathWord) : Atomic Shrunk w.run := by
  have combined (m n : Value) (f : Number → Number → Value) :
      Atomic Shrunk (do
        let m ← number m
        let n ← number n
        push (f m n)) :=
    atomic_after (sheds_expect _ _ _) fun _ => atomic_of (sheds_expect _ _ _) fun _ =>
      unfailing_push _
  cases w with
  | add =>
    refine atomic_after sheds_popPair fun x => ?_
    split
    · exact atomic_offsetAddress _ _
    · exact atomic_offsetAddress _ _
    · exact combined _ _ _
  | subtract =>
    refine atomic_after sheds_popPair fun x => ?_
    split
    · exact atomic_offsetAddress _ _
    · exact combined _ _ _
  | divide | mod => exact atomic_of sheds_popDivision fun _ => unfailing_push _
  | divMod => exact atomic_of sheds_popDivision fun _ => unfailing_pushes _ _
  | scale =>
    refine atomic_after (sheds_require 3) fun _ => atomic_after sheds_popNumber fun divisor =>
      atomic_after sheds_popNumbers fun x => ?_
    split
    · dsimp only
      split
      · exact atomic_of (sheds_throw _) fun _ => unfailing_push _
      · exact (unfailing_push _).atomic
    · dsimp only
      split
      · exact atomic_of (sheds_throw _) fun _ => unfailing_push _
      · exact (unfailing_push _).atomic
  | multiply | min | max => exact atomic_binary _ _
  | negate | abs | increment | decrement | addTwo | subtractTwo | double | halve =>
    exact atomic_unary _ _
  | equal | notEqual => exact atomic_of sheds_popPair fun _ => unfailing_push _
  | less | greater | lessEqual | greaterEqual => exact atomic_comparison _
  | zeroEqual | zeroLess | zeroGreater | zeroNotEqual => exact atomic_zeroComparison _
  | and | or | xor => exact atomic_bitwise _
  | invert =>
    refine atomic_after sheds_pop fun v => ?_
    cases v with
    | flag b => exact (unfailing_push _).atomic
    | _ => exact atomic_of (sheds_expect _ _ _) fun _ => unfailing_push _
  | shiftLeft | shiftRight => exact atomic_shift _
  | pushTrue | pushFalse => exact (unfailing_push _).atomic
  | not => exact atomic_of sheds_popFlag fun _ => unfailing_push _

end Operand

end StackLang
