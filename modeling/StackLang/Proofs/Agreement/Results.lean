import StackLang.Proofs.Framework.Triple

/-!
# Two runs that concur

The same action in two sessions that differ in many ways: in what runs, in what lies on the return
stack, in the dictionary, in the source.  The two runs concur if they leave the same values, memory
and output behind, and fail for the same cause if they fail.  What a run with less room on the
return stack does is left open.

* `Concurs`: the results of two runs.
* `Concurring`: an action that looks at nothing but values, memory and the name of the word.
* `concurring_builtin`: most built-in words are such actions.
-/

namespace StackLang

/-- What plain words read and write. -/
structure Board where
  stack : DataStack
  cells : CellStore
  output : String

namespace Session

def board (s : Session) : Board :=
  ⟨s.stack, s.cells, s.output⟩

def setBoard (s : Session) (b : Board) (observers : Observers) : Session :=
  { s with stack := b.stack, cells := b.cells, output := b.output, observers }

/-- Plain words find the same in both sessions, and are blamed by the same name. -/
structure Level (s t : Session) : Prop where
  board : t.board = s.board
  word : t.currentWord = s.currentWord

/-- The same was done in both sessions, and nothing else. -/
def Worked (s t s' t' : Session) : Prop :=
  ∃ b o o', s' = s.setBoard b o ∧ t' = t.setBoard b o'

variable {s t s' t' s'' t'' : Session}

theorem Level.stack (h : s.Level t) : t.stack = s.stack := congrArg Board.stack h.board

theorem Level.cells (h : s.Level t) : t.cells = s.cells := congrArg Board.cells h.board

theorem Worked.refl (h : t.board = s.board) : Worked s t s t := by
  refine ⟨s.board, s.observers, t.observers, rfl, ?_⟩
  rw [← h]
  rfl

theorem Worked.trans (h : Worked s t s' t') (h' : Worked s' t' s'' t'') : Worked s t s'' t'' := by
  obtain ⟨_, _, _, rfl, rfl⟩ := h
  obtain ⟨b, o, o', rfl, rfl⟩ := h'
  exact ⟨b, o, o', rfl, rfl⟩

theorem Worked.level (h : Worked s t s' t') (hl : s.Level t) : s'.Level t' := by
  obtain ⟨b, o, o', rfl, rfl⟩ := h
  exact ⟨rfl, hl.word⟩

/-- Another stack in both sessions. -/
theorem worked_setStack (h : t.board = s.board) (stack : DataStack) :
    Worked s t { s with stack } { t with stack } := by
  refine ⟨⟨stack, s.cells, s.output⟩, s.observers, t.observers, rfl, ?_⟩
  rw [← show t.cells = s.cells from congrArg Board.cells h,
    ← show t.output = s.output from congrArg Board.output h]
  rfl

theorem worked_setCells (h : t.board = s.board) (cells : CellStore) :
    Worked s t { s with cells } { t with cells } := by
  refine ⟨⟨s.stack, cells, s.output⟩, s.observers, t.observers, rfl, ?_⟩
  rw [← show t.stack = s.stack from congrArg Board.stack h,
    ← show t.output = s.output from congrArg Board.output h]
  rfl

/-- The same text is printed in both sessions. -/
theorem worked_print (h : t.board = s.board) (text : String) (o o' : Observers) : Worked s t
    { s with output := s.output ++ text, observers := o }
    { t with output := t.output ++ text, observers := o' } := by
  refine ⟨⟨s.stack, s.cells, s.output ++ text⟩, o, o', rfl, ?_⟩
  rw [← show t.stack = s.stack from congrArg Board.stack h,
    ← show t.cells = s.cells from congrArg Board.cells h,
    ← show t.output = s.output from congrArg Board.output h]
  rfl

end Session

/-- The runs stop for the same cause. -/
def Fault.Concurs : Fault → Fault → Prop
  | script e, script e' => e'.cause = e.cause
  | breach b, breach b' => b' = b
  | _, _ => False

/-- There is no room for another item on the return stack. -/
def Fault.IsFull (f : Fault) : Prop :=
  ∃ e depth, f = .script e ∧ e.cause = .returnStackOverflow depth

/-- Both runs succeed with the same result, in sessions that `Q` relates, or they fail for the same
cause with the same values, memory and output; or one of them has found its return stack full. -/
inductive Concurs {α : Type} (Q : α → Session → Session → Prop) :
    EStateM.Result Fault Session α → EStateM.Result Fault Session α → Prop where
  | ok {s t : Session} (a : α) (h : Q a s t) : Concurs Q (.ok a s) (.ok a t)
  | error {s t : Session} {f f' : Fault} (hf : f.Concurs f') (hb : t.board = s.board) :
    Concurs Q (.error f s) (.error f' t)
  | fullLeft {s : Session} {f : Fault} (h : f.IsFull) (r : EStateM.Result Fault Session α) :
    Concurs Q (.error f s) r
  | fullRight {t : Session} {f : Fault} (h : f.IsFull) (r : EStateM.Result Fault Session α) :
    Concurs Q r (.error f t)

namespace Concurs

variable {α β : Type} {Q Q' : α → Session → Session → Prop} {R : β → Session → Session → Prop}
  {s t : Session}

theorem mono {r r' : EStateM.Result Fault Session α} (h : Concurs Q r r')
    (hQ : ∀ a s t, Q a s t → Q' a s t) : Concurs Q' r r' := by
  cases h with
  | ok a h => exact .ok a (hQ a _ _ h)
  | error hf hb => exact .error hf hb
  | fullLeft h => exact .fullLeft h _
  | fullRight h => exact .fullRight h _

theorem raiseLeft (depth : Nat) (s : Session) (r : EStateM.Result Fault Session α) :
    Concurs Q (Action.raise (.returnStackOverflow depth) s) r :=
  .fullLeft ⟨_, depth, rfl, rfl⟩ r

theorem raiseRight (depth : Nat) (t : Session) (r : EStateM.Result Fault Session α) :
    Concurs Q r (Action.raise (.returnStackOverflow depth) t) :=
  .fullRight ⟨_, depth, rfl, rfl⟩ r

/-- One action after the other. -/
theorem bind {p : Action α} {q : α → Action β} (hp : Concurs Q (p s) (p t))
    (hq : ∀ a s' t', Q a s' t' → Concurs R (q a s') (q a t')) :
    Concurs R ((p >>= q) s) ((p >>= q) t) := by
  rw [bind_apply, bind_apply]
  generalize p s = r at hp
  generalize p t = r' at hp
  cases hp with
  | ok a h => exact hq a _ _ h
  | error hf hb => exact .error hf hb
  | fullLeft h => exact .fullLeft h _
  | fullRight h => exact .fullRight h _

end Concurs

open Session

namespace Action

variable {α β : Type}

/-- In sessions that are level the action does the same. -/
def Concurring (p : Action α) : Prop :=
  ∀ s t, Level s t → Concurs (fun _ => Worked s t) (p s) (p t)

namespace Concurring

theorem bind {p : Action α} {q : α → Action β} (hp : Concurring p) (hq : ∀ a, Concurring (q a)) :
    Concurring (p >>= q) := fun s t h => (hp s t h).bind fun a s' t' h' =>
  (hq a s' t' (h'.level h)).mono fun _ _ _ => h'.trans

theorem discard {p : Action α} (hp : Concurring p) : Concurring (Functor.discard p) :=
  hp.bind fun _ _ _ h => .ok () (.refl h.board)

/-- What is looked at must be the same. -/
theorem view {q : Session → Action β} (hq : ∀ s t, Level s t → q t = q s)
    (h : ∀ s, Concurring (q s)) : Concurring (get >>= q) := by
  intro s t hst
  show Concurs _ (q s s) (q t t)
  rw [hq s t hst]
  exact h s s t hst

end Concurring

theorem concurring_raise (cause : Cause) : Concurring (raise cause : Action α) :=
  fun _ _ h => .error rfl h.board

theorem concurring_operands (p : Operand α) : Concurring (operands p) := by
  intro s t h
  unfold operands
  rw [h.stack, h.word]
  cases p s.stack with
  | ok a stack => exact .ok a (worked_setStack h.board stack)
  | error fault stack => exact .error rfl ((worked_setStack h.board stack).level h).board

theorem concurring_push (v : Value) : Concurring (push v) :=
  concurring_operands _

theorem concurring_print (text : String) : Concurring (print text) :=
  fun _ _ h => .ok () (worked_print h.board text _ _)

/-! ## Memory -/

theorem concurring_fetchCell (address : UInt64) : Concurring (MemoryWord.fetchCell address) := by
  intro s t h
  unfold MemoryWord.fetchCell MemoryWord.noCell
  rw [h.cells, h.word]
  cases s.cells.fetch? address.toNat with
  | none => exact concurring_raise _ s t h
  | some v => exact .ok v (.refl h.board)

theorem concurring_storeCell (address : UInt64) (v : Value) :
    Concurring (MemoryWord.storeCell address v) := by
  intro s t h
  unfold MemoryWord.storeCell MemoryWord.noCell
  rw [h.cells, h.word]
  split
  · exact .ok () (worked_setCells h.board _)
  · exact concurring_raise _ s t h

theorem concurring_allot (count : Nat) : Concurring (allot count) := by
  intro s t h
  unfold allot
  rw [h.cells, h.word]
  split
  · exact .ok _ (worked_setCells h.board _)
  · exact concurring_raise _ s t h

theorem concurring_memory (w : MemoryWord) : Concurring w.run := by
  cases w with
  | fetch =>
    refine (concurring_operands _).bind fun address => ?_
    exact (concurring_fetchCell address).bind fun v => concurring_push v
  | store => exact (concurring_operands _).bind fun x => concurring_storeCell x.1 x.2
  | addTo =>
    refine (concurring_operands _).bind fun x => ?_
    refine (concurring_fetchCell x.1).bind fun current => ?_
    exact (concurring_operands _).bind fun n => concurring_storeCell x.1 _
  | cells => exact (concurring_operands _).bind fun n => concurring_push _
  | allot => exact (concurring_operands _).bind fun n => (concurring_allot n).discard
  | here =>
    exact Concurring.view (fun s t h => by rw [h.cells]) fun s => concurring_push _

/-! ## Words -/

end Action

/-- Does it matter to the word where it runs?  It does to those that move values to the return stack
and back, that take a name from the source, and that list or change the dictionary. -/
def Builtin.isSituated : Builtin → Bool
  | returns _ | output .words | output .see => true
  | defining .constant | defining .«variable» | defining .forget | defining .reset => true
  | _ => false

namespace Action

/-- Every word that runs when it is executed does the same in sessions that are level, unless it
matters where it runs. -/
theorem concurring_builtin {w : Builtin} (hrole : w.spec.role = .plain)
    (hw : w.isSituated = false) : Concurring w.run := by
  cases w with
  | stack w => exact concurring_operands _
  | returns w => cases hw
  | math w => exact concurring_operands _
  | memory w => exact concurring_memory w
  | defining w =>
    cases w with
    | colon | semicolon | immediate => cases hrole
    | constant | «variable» | forget | reset => cases hw
  | control w => cases w <;> cases hrole
  | output w =>
    cases w with
    | print => exact (concurring_operands _).bind fun v => concurring_print _
    | printStack =>
      exact Concurring.view (fun s t h => by rw [h.stack]) fun s => concurring_print _
    | newLine | space => exact concurring_print _
    | spaces | type => exact (concurring_operands _).bind fun x => concurring_print _
    | emit =>
      refine (concurring_operands _).bind fun v => ?_
      cases v.int?.bind OutputWord.character? with
      | none => exact concurring_operands _
      | some c => exact concurring_print _
    | words | see => cases hw

end Action

end StackLang
