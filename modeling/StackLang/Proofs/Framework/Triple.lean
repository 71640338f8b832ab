import StackLang.Session.Evaluate

/-!
# Triples

`Triple P p Q E`: from every state with `P`, the computation `p` ends with a result `a` in a state
with `Q a`, or fails with an `e` in a state with `E e`.

* `Triple.bind`: one computation after the other.
* `Resilient`: what a session does not lose when values are moved, printed or stored.
* `Resilient.triple_run`: no built-in word that does not compile or define takes it away.
* `Insensitive`: what it does not lose whatever else the observers are told, either.
-/

namespace StackLang

variable {ε σ α β : Type}

/-- From a state with `P` the computation gives a result and a state with `Q`, or fails with `E`. -/
def Triple (P : σ → Prop) (p : EStateM ε σ α) (Q : α → σ → Prop) (E : ε → σ → Prop) : Prop :=
  ∀ s, P s → match p s with
    | .ok a t => Q a t
    | .error e t => E e t

theorem bind_apply (p : EStateM ε σ α) (q : α → EStateM ε σ β) (s : σ) :
    (p >>= q) s = match p s with
      | .ok a t => q a t
      | .error e t => .error e t := by
  show EStateM.bind p q s = _
  unfold EStateM.bind
  cases p s <;> rfl

theorem discard_apply (p : EStateM ε σ α) (s : σ) :
    (discard p : EStateM ε σ PUnit) s = match p s with
      | .ok _ t => .ok () t
      | .error e t => .error e t :=
  bind_apply p (fun _ => Pure.pure ()) s

/-- Both of two computations that succeed one after the other. -/
theorem exists_of_bind {p : EStateM ε σ α} {q : α → EStateM ε σ β} {s u : σ} {b : β}
    (h : (p >>= q) s = .ok b u) : ∃ a t, p s = .ok a t ∧ q a t = .ok b u := by
  rw [bind_apply] at h
  cases hp : p s with
  | ok a t =>
    rw [hp] at h
    exact ⟨a, t, rfl, h⟩
  | error e t =>
    rw [hp] at h
    cases h

theorem get_bind (q : σ → EStateM ε σ β) (s : σ) : (get >>= q) s = q s s := rfl

theorem modify_bind (f : σ → σ) (q : Unit → EStateM ε σ β) (s : σ) :
    ((modify f : EStateM ε σ Unit) >>= q) s = q () (f s) := rfl

namespace Triple

variable {P P' : σ → Prop} {Q Q' : α → σ → Prop} {R : β → σ → Prop} {E : ε → σ → Prop}

theorem mono {p : EStateM ε σ α} (h : Triple P p Q E) (hP : ∀ s, P' s → P s)
    (hQ : ∀ a s, Q a s → Q' a s) : Triple P' p Q' E := by
  intro s hs
  have := h s (hP s hs)
  split at this <;> simp_all

/-- Less is said of a failure. -/
theorem weaken {p : EStateM ε σ α} {E' : ε → σ → Prop} (h : Triple P p Q E)
    (hE : ∀ e s, E e s → E' e s) : Triple P p Q E' := by
  intro s hs
  have := h s hs
  split at this <;> simp_all

theorem bind {p : EStateM ε σ α} {q : α → EStateM ε σ β} (hp : Triple P p Q E)
    (hq : ∀ a, Triple (Q a) (q a) R E) : Triple P (p >>= q) R E := by
  intro s hs
  have h := hp s hs
  rw [bind_apply]
  cases hr : p s with
  | ok a t =>
    rw [hr] at h
    exact hq a t h
  | error e t =>
    rw [hr] at h
    exact h

theorem pure {a : α} (h : ∀ s, P s → Q a s) : Triple P (Pure.pure a) Q E :=
  fun s hs => h s hs

theorem get_bind {q : σ → EStateM ε σ β} (h : ∀ s, P s → Triple (· = s) (q s) R E) :
    Triple P (get >>= q) R E :=
  fun s hs => h s hs s rfl

theorem modify {f : σ → σ} {Q : Unit → σ → Prop} (h : ∀ s, P s → Q () (f s)) :
    Triple P (modify f) Q E :=
  fun s hs => h s hs

/-- A fact that does not depend on the state may be used. -/
theorem of_fact {p : EStateM ε σ α} {φ : Prop} (hφ : ∀ s, P s → φ) (h : φ → Triple P p Q E) :
    Triple P p Q E :=
  fun s hs => h (hφ s hs) s hs

theorem discard {p : EStateM ε σ α} {Q : Unit → σ → Prop} (h : Triple P p (fun _ => Q ()) E) :
    Triple P (Functor.discard p) Q E :=
  bind h fun _ => pure fun _ hs => hs

/-- What is read from the state does not matter. -/
theorem view {q : σ → EStateM ε σ β} (h : ∀ s, Triple P (q s) R E) : Triple P (get >>= q) R E :=
  fun s hs => h s s hs

end Triple

namespace Action

variable {P : Session → Prop} {Q : α → Session → Prop} {R : β → Session → Prop}
  {E : Fault → Session → Prop}

theorem triple_raise {cause : Cause} (h : ∀ s, P s → E (.script (s.error cause)) s) :
    Triple P (raise cause : Action α) Q E :=
  fun s hs => h s hs

theorem triple_raise_bind {cause : Cause} {q : α → Action β}
    (h : ∀ s, P s → E (.script (s.error cause)) s) : Triple P (raise cause >>= q) R E :=
  fun s hs => h s hs

/-- Only a script can fail: no rule of the machine is broken, and the fuel does not run out. -/
def Scripted (E : Session → Prop) : Fault → Session → Prop
  | .script _, s => E s
  | .breach _, _ => False
  | .outOfFuel, _ => False

/-! ## What moving values does not take away -/

/-- `P` is a property that a session does not lose when values are moved, printed or stored, when
memory is allotted, and when tokens are used up; a script may fail wherever it holds. -/
structure Resilient (P : Session → Prop) (E : Fault → Session → Prop) : Prop where
  fails : ∀ {s : Session} (cause : Cause), P s → E (.script (s.error cause)) s
  data : ∀ {s : Session} {cells : CellStore} (stack : DataStack), s.cells.here ≤ cells.here →
    P s → P { s with stack, cells }
  prints : ∀ {s : Session} (text : String), P s → P { s with
    output := s.output ++ text
    observers := s.observers.record (.output text) }
  token : ∀ {s : Session} {source behind : Pending} {rest : List Pending} {t : Token},
    s.sources = source :: rest → source.nextToken? = some (t, behind) → P s →
      P { s with sources := behind :: rest }
  putAside : ∀ {s : Session} {v : Value} {returns : ReturnStack},
    s.returns.push? (.value v) = some returns → P s → P { s with returns }
  takeBack : ∀ {s : Session} {v : Value} {returns : ReturnStack},
    s.returns.popValue? = some (v, returns) → P s → P { s with returns }

/-- The property does not depend on what the observers have been told, either. -/
structure Insensitive (P : Session → Prop) (E : Fault → Session → Prop) : Prop
    extends Resilient P E where
  observe : ∀ {s : Session} (observers : Observers), P s → P { s with observers }

theorem Insensitive.triple_notify (hP : Insensitive P E) (e : Event) :
    Triple P (notify e) (fun _ => P) E :=
  Triple.modify fun _ hs => hP.observe _ hs

namespace Resilient

variable (hP : Resilient P E)
include hP

theorem triple_operands (p : Operand α) : Triple P (operands p) (fun _ => P) E := by
  intro s hs
  unfold operands
  cases p s.stack with
  | ok a stack => exact hP.data stack (Nat.le_refl _) hs
  | error fault stack => exact hP.fails _ (hP.data stack (Nat.le_refl _) hs)

theorem triple_push (v : Value) : Triple P (push v) (fun _ => P) E :=
  hP.triple_operands _

theorem triple_raise (cause : Cause) : Triple P (raise cause : Action α) (fun _ => P) E :=
  Action.triple_raise fun _ => hP.fails _

theorem triple_print (text : String) : Triple P (print text) (fun _ => P) E :=
  Triple.modify fun _ hs => hP.prints text hs

theorem triple_pushValue (v : Value) : Triple P (pushReturn (.value v)) (fun _ => P) E := by
  intro s hs
  unfold pushReturn
  cases hr : s.returns.push? (.value v) with
  | some returns => exact hP.putAside hr hs
  | none => exact hP.fails _ hs

theorem triple_nextToken? : Triple P nextToken? (fun _ => P) E := by
  intro s hs
  unfold nextToken?
  cases hsrc : s.sources with
  | nil => exact hs
  | cons source rest =>
    cases ht : source.nextToken? with
    | none => simpa [ht] using hs
    | some found => simpa [ht] using hP.token hsrc ht hs

theorem triple_nextName : Triple P nextName (fun _ => P) E := by
  refine hP.triple_nextToken?.bind fun found => ?_
  cases found with
  | none => exact Triple.view fun s => hP.triple_raise _
  | some t =>
    dsimp only
    cases t.name? with
    | none => exact Triple.view fun s => hP.triple_raise _
    | some name => exact Triple.pure fun _ hs => hs

theorem triple_lookup (name : String) : Triple P (lookup name) (fun _ => P) E := by
  intro s hs
  unfold lookup
  cases s.dictionary.find? name with
  | none => exact hP.fails _ hs
  | some found => exact hs

theorem triple_fetchCell (address : UInt64) :
    Triple P (MemoryWord.fetchCell address) (fun _ => P) E := by
  intro s hs
  unfold MemoryWord.fetchCell
  cases s.cells.fetch? address.toNat with
  | none => exact hP.fails _ hs
  | some v => exact hs

theorem triple_storeCell (address : UInt64) (v : Value) :
    Triple P (MemoryWord.storeCell address v) (fun _ => P) E := by
  intro s hs
  unfold MemoryWord.storeCell
  cases s.cells.holds address.toNat with
  | false => exact hP.fails _ hs
  | true =>
    have hh := Nat.le_of_eq (CellStore.here_put s.cells address.toNat v).symm
    exact hP.data s.stack hh hs

theorem triple_allot (count : Nat) : Triple P (allot count) (fun _ => P) E := by
  intro s hs
  unfold allot
  cases ha : s.cells.allot? count with
  | none => exact hP.fails _ hs
  | some found =>
    have hh := Nat.le.intro (CellStore.here_allot? ha).2.symm
    exact hP.data s.stack hh hs

/-! ## Words -/

theorem triple_memory (w : MemoryWord) : Triple P w.run (fun _ => P) E := by
  cases w with
  | fetch =>
    refine (hP.triple_operands _).bind fun address => ?_
    exact (hP.triple_fetchCell address).bind fun v => hP.triple_push v
  | store =>
    refine (hP.triple_operands _).bind fun x => ?_
    exact hP.triple_storeCell x.1 x.2
  | addTo =>
    refine (hP.triple_operands _).bind fun x => ?_
    refine (hP.triple_fetchCell x.1).bind fun current => ?_
    exact (hP.triple_operands _).bind fun n => hP.triple_storeCell x.1 _
  | cells => exact (hP.triple_operands _).bind fun n => hP.triple_push _
  | allot => exact (hP.triple_operands _).bind fun n => Triple.discard (hP.triple_allot n)
  | here => exact Triple.view fun s => hP.triple_push _

theorem triple_returns (w : ReturnWord) : Triple P w.run (fun _ => P) E := by
  cases w with
  | toReturn => exact (hP.triple_operands _).bind fun v => hP.triple_pushValue v
  | fromReturn =>
    refine Triple.get_bind fun s hs => ?_
    cases hr : s.returns.popValue? with
    | none => exact (hP.triple_operands _).mono (fun _ h => h ▸ hs) fun _ _ h => h
    | some found =>
      refine (Triple.modify (Q := fun _ => P) fun t ht => ?_).bind fun _ => hP.triple_push _
      subst ht
      exact hP.takeBack hr hs
  | copyReturn =>
    refine Triple.view fun s => ?_
    cases s.returns.peekValue? with
    | none => exact hP.triple_operands _
    | some v => exact hP.triple_push v

theorem triple_output (w : OutputWord) : Triple P w.run (fun _ => P) E := by
  cases w with
  | print => exact (hP.triple_operands _).bind fun v => hP.triple_print _
  | printStack | words => exact Triple.view fun s => hP.triple_print _
  | newLine | space => exact hP.triple_print _
  | spaces | type => exact (hP.triple_operands _).bind fun x => hP.triple_print _
  | emit =>
    refine (hP.triple_operands _).bind fun v => ?_
    cases v.int?.bind OutputWord.character? with
    | none => exact hP.triple_operands _
    | some c => exact hP.triple_print _
  | see =>
    refine hP.triple_nextName.bind fun x => ?_
    refine (hP.triple_lookup x.2).bind fun y => ?_
    exact Triple.view fun s => hP.triple_print _

/-- A built-in word that does not define or compile takes nothing away, so a property is kept by
all of them if the words that define and compile keep it. -/
theorem triple_run (hd : ∀ w : DefiningWord, Triple P w.run (fun _ => P) E)
    (hc : ∀ w : ControlWord, Triple P w.run (fun _ => P) E) (w : Builtin) :
    Triple P w.run (fun _ => P) E := by
  cases w with
  | stack w => exact hP.triple_operands _
  | returns w => exact hP.triple_returns w
  | math w => exact hP.triple_operands _
  | memory w => exact hP.triple_memory w
  | defining w => exact hd w
  | control w => exact hc w
  | output w => exact hP.triple_output w

end Resilient

end Action

end StackLang
