import StackLang.Proofs.Framework.Triple

/-!
# Sessions that a program cannot tell apart

`Respects R p`: from two related states the computation `p` gives the same result or the same
failure, in related states.

* `Congruence`: a relation that leaves alone whatever a built-in word can look at.
* `Congruence.respects_builtin`: the built-in words respect every such relation.
-/

namespace StackLang

/-- The same result or the same failure, in related states. -/
inductive Alike {ε σ α : Type} (R : σ → σ → Prop) :
    EStateM.Result ε σ α → EStateM.Result ε σ α → Prop where
  | ok {s t : σ} (a : α) (h : R s t) : Alike R (.ok a s) (.ok a t)
  | error {s t : σ} (e : ε) (h : R s t) : Alike R (.error e s) (.error e t)

/-- From related states the computation ends alike. -/
def Respects {ε σ α : Type} (R : σ → σ → Prop) (p : EStateM ε σ α) : Prop :=
  ∀ s t, R s t → Alike R (p s) (p t)

theorem Alike.mono {ε σ α : Type} {R S : σ → σ → Prop} {r r' : EStateM.Result ε σ α}
    (h : Alike R r r') (hS : ∀ s t, R s t → S s t) : Alike S r r' := by
  cases h with
  | ok a h => exact .ok a (hS _ _ h)
  | error e h => exact .error e (hS _ _ h)

/-- One computation after the other, with another relation behind the second. -/
theorem Alike.bind {ε σ α β : Type} {R S : σ → σ → Prop} {p : EStateM ε σ α}
    {q : α → EStateM ε σ β} {s t : σ} (hp : Alike R (p s) (p t))
    (hq : ∀ a s' t', R s' t' → Alike S (q a s') (q a t')) (herr : ∀ s' t', R s' t' → S s' t') :
    Alike S ((p >>= q) s) ((p >>= q) t) := by
  rw [bind_apply, bind_apply]
  generalize p s = r at hp
  generalize p t = r' at hp
  cases hp with
  | ok a h => exact hq a _ _ h
  | error e h => exact .error e (herr _ _ h)

namespace Respects

variable {ε σ α β : Type} {R : σ → σ → Prop}

theorem bind {p : EStateM ε σ α} {q : α → EStateM ε σ β} (hp : Respects R p)
    (hq : ∀ a, Respects R (q a)) : Respects R (p >>= q) :=
  fun s t h => (hp s t h).bind (fun a _ _ h' => hq a _ _ h') fun _ _ h' => h'

theorem pure (a : α) : Respects R (Pure.pure a : EStateM ε σ α) :=
  fun _ _ h => .ok a h

theorem modify {f : σ → σ} (hf : ∀ s t, R s t → R (f s) (f t)) :
    Respects R (modify f : EStateM ε σ Unit) :=
  fun s t h => .ok () (hf s t h)

/-- What is read must be the same, and what is done with it must respect the relation. -/
theorem view {q : σ → EStateM ε σ β} (hq : ∀ s t, R s t → q t = q s)
    (h : ∀ s, Respects R (q s)) : Respects R (get >>= q) := by
  intro s t hst
  show Alike R (q s s) (q t t)
  rw [hq s t hst]
  exact h s s t hst

theorem discard {p : EStateM ε σ α} (h : Respects R p) : Respects R (Functor.discard p) :=
  bind h fun _ => pure ()

/-- A computation that respects a property, as a relation of a state with itself, keeps it. -/
theorem keeps {P : σ → Prop} {p : EStateM ε σ α} (hp : Respects (fun s t => t = s ∧ P s) p)
    {s t : σ} {a : α} (h : P s) (ht : p s = .ok a t) : P t := by
  have hs := hp s s ⟨rfl, h⟩
  rw [ht] at hs
  cases hs with
  | ok _ h => exact h.2

end Respects

theorem ReturnStack.peekValue?_eq (r : ReturnStack) :
    r.peekValue? = r.popValue?.map (·.1) := by
  obtain ⟨items, limit, depth, h⟩ := r
  rcases items with _ | ⟨_ | _ | _, rest⟩ <;> rfl

/-- The part of a session that built-in words work on directly. -/
structure Workspace where
  stack : DataStack
  location : Option Location
  builtin : Option String
  calls : List CallItem
  dictionary : Dictionary
  cells : CellStore
  output : String

namespace Session

def workspace (s : Session) : Workspace :=
  ⟨s.stack, s.location, s.builtin, s.calls, s.dictionary, s.cells, s.output⟩

def setWorkspace (s : Session) (w : Workspace) : Session :=
  { s with
    stack := w.stack
    location := w.location
    builtin := w.builtin
    calls := w.calls
    dictionary := w.dictionary
    cells := w.cells
    output := w.output }

/-- What built-in words can look at is the same in both sessions. -/
structure Agree (s t : Session) : Prop where
  workspace : t.workspace = s.workspace
  sessionMark : t.sessionMark = s.sessionMark
  cellMark : t.cellMark = s.cellMark
  name : t.frame.map (·.name) = s.frame.map (·.name)
  definition : t.definition? = s.definition?
  value : t.returns.peekValue? = s.returns.peekValue?

namespace Agree

variable {s t : Session} (h : s.Agree t)
include h

theorem stack : t.stack = s.stack := congrArg Workspace.stack h.workspace

theorem location : t.location = s.location := congrArg Workspace.location h.workspace

theorem calls : t.calls = s.calls := congrArg Workspace.calls h.workspace

theorem dictionary : t.dictionary = s.dictionary := congrArg Workspace.dictionary h.workspace

theorem cells : t.cells = s.cells := congrArg Workspace.cells h.workspace

theorem currentWord : t.currentWord = s.currentWord := by
  rw [Session.currentWord, h.name, show t.builtin = s.builtin from
    congrArg Workspace.builtin h.workspace]
  rfl

theorem error (cause : Cause) : t.error cause = s.error cause := by
  rw [Session.error, h.location, h.calls]
  rfl

theorem isCompiling : t.isCompiling = s.isCompiling := by
  rw [Session.isCompiling, h.definition]
  rfl

end Agree

end Session

open Action

/-- A relation of sessions that no built-in word can see or bring about a difference in. -/
structure Congruence (R : Session → Session → Prop) : Prop where
  agree : ∀ {s t}, R s t → s.Agree t
  write : ∀ {s t}, R s t → ∀ w, R (s.setWorkspace w) (t.setWorkspace w)
  record : ∀ {s t}, R s t → ∀ e, R { s with observers := s.observers.record e }
    { t with observers := t.observers.record e }
  source : Respects R (discard currentSource)
  token : Respects R nextToken?
  setDefinition : ∀ d, Respects R (setDefinition d)
  pushValue : ∀ v, Respects R (pushReturn (.value v))
  popValue : ∀ {s t}, R s t → ∀ {v returns}, s.returns.popValue? = some (v, returns) →
    ∃ returns', t.returns.popValue? = some (v, returns') ∧
      R { s with returns } { t with returns := returns' }
  finishWord : ∀ name, Respects R (finishWord name)

namespace Congruence

variable {α : Type} {R : Session → Session → Prop} (hR : Congruence R)
include hR

/-- The same change of the workspace in both sessions. -/
theorem change {s t : Session} (h : R s t) (f : Workspace → Workspace) :
    R (s.setWorkspace (f s.workspace)) (t.setWorkspace (f t.workspace)) := by
  rw [(hR.agree h).workspace]
  exact hR.write h _

theorem respects_raise (cause : Cause) : Respects R (raise cause : Action α) := by
  intro s t h
  have ha : (raise cause : Action α) t = .error (.script (s.error cause)) t := by
    rw [← (hR.agree h).error]
    rfl
  rw [ha]
  exact .error _ h

theorem respects_raise_bind {β : Type} (cause : Cause) (q : α → Action β) :
    Respects R (raise cause >>= q) := by
  intro s t h
  have ha := hR.respects_raise (α := β) cause s t h
  exact ha

theorem respects_operands (p : Operand α) : Respects R (operands p) := by
  intro s t h
  have ha := hR.agree h
  unfold operands
  rw [ha.stack, ha.currentWord]
  cases p s.stack with
  | ok a stack => exact .ok a (hR.change h ({ · with stack }))
  | error fault stack =>
    dsimp only
    rw [ha.error]
    exact .error _ (hR.change h ({ · with stack }))

theorem respects_push (v : Value) : Respects R (push v) :=
  hR.respects_operands _

theorem respects_notify (e : Event) : Respects R (notify e) :=
  Respects.modify fun _ _ h => hR.record h e

theorem respects_print (text : String) : Respects R (print text) :=
  Respects.modify fun _ _ h =>
    hR.record (hR.change h fun w => { w with output := w.output ++ text }) (.output text)

/-- What is done with the workspace may depend on the workspace and on what else words can see. -/
theorem respects_view {q : Session → Action α} (hq : ∀ s t, s.Agree t → q t = q s)
    (h : ∀ s, Respects R (q s)) : Respects R (get >>= q) :=
  Respects.view (fun s t hst => hq s t (hR.agree hst)) h

theorem respects_missingName : Respects R
    (do raise (.missingName (← get).currentWord) : Action α) :=
  hR.respects_view (fun s t h => by rw [h.currentWord]) fun s => hR.respects_raise _

theorem respects_nextName : Respects R nextName := by
  refine hR.token.bind fun found => ?_
  cases found with
  | none => exact hR.respects_missingName
  | some token =>
    dsimp only
    cases token.name? with
    | none => exact hR.respects_missingName
    | some name => exact Respects.pure _

theorem respects_lookup (name : String) : Respects R (lookup name) := by
  intro s t h
  unfold lookup
  rw [(hR.agree h).dictionary]
  cases s.dictionary.find? name with
  | none => exact hR.respects_raise _ s t h
  | some found => exact .ok found h

/-! ## Memory -/

theorem respects_fetchCell (address : UInt64) : Respects R (MemoryWord.fetchCell address) := by
  intro s t h
  unfold MemoryWord.fetchCell MemoryWord.noCell
  rw [(hR.agree h).cells, (hR.agree h).currentWord]
  cases s.cells.fetch? address.toNat with
  | none => exact hR.respects_raise _ s t h
  | some v => exact .ok v h

theorem respects_storeCell (address : UInt64) (v : Value) :
    Respects R (MemoryWord.storeCell address v) := by
  intro s t h
  unfold MemoryWord.storeCell MemoryWord.noCell
  rw [(hR.agree h).cells, (hR.agree h).currentWord]
  split
  · exact .ok () (hR.change h ({ · with cells := s.cells.put address.toNat v }))
  · exact hR.respects_raise _ s t h

theorem respects_allot (count : Nat) : Respects R (allot count) := by
  intro s t h
  unfold allot
  rw [(hR.agree h).cells, (hR.agree h).currentWord]
  split
  · rename_i address cells _
    exact .ok address (hR.change h ({ · with cells }))
  · exact hR.respects_raise _ s t h

theorem respects_memory (w : MemoryWord) : Respects R w.run := by
  cases w with
  | fetch =>
    refine (hR.respects_operands _).bind fun address => ?_
    exact (hR.respects_fetchCell address).bind fun v => hR.respects_push v
  | store =>
    refine (hR.respects_operands _).bind fun x => ?_
    exact hR.respects_storeCell x.1 x.2
  | addTo =>
    refine (hR.respects_operands _).bind fun x => ?_
    refine (hR.respects_fetchCell x.1).bind fun current => ?_
    exact (hR.respects_operands _).bind fun n => hR.respects_storeCell x.1 _
  | cells => exact (hR.respects_operands _).bind fun n => hR.respects_push _
  | allot => exact (hR.respects_operands _).bind fun n => (hR.respects_allot n).discard
  | here => exact hR.respects_view (fun s t h => by rw [h.cells]) fun s => hR.respects_push _

theorem respects_fromReturn : Respects R ReturnWord.fromReturn.run := by
  intro s t h
  have hv := (hR.agree h).value
  rw [ReturnStack.peekValue?_eq, ReturnStack.peekValue?_eq] at hv
  unfold ReturnWord.run
  dsimp only
  rw [get_bind, get_bind]
  cases hs : s.returns.popValue? with
  | none =>
    rw [hs, Option.map_none, Option.map_eq_none_iff] at hv
    rw [hv]
    exact hR.respects_operands _ s t h
  | some x =>
    obtain ⟨returns', ht, h'⟩ := hR.popValue h hs
    rw [ht]
    exact hR.respects_push x.1 _ _ h'

theorem respects_returns (w : ReturnWord) : Respects R w.run := by
  cases w with
  | toReturn => exact (hR.respects_operands _).bind fun v => hR.pushValue v
  | fromReturn => exact hR.respects_fromReturn
  | copyReturn =>
    refine hR.respects_view (fun s t h => by rw [h.value]) fun s => ?_
    cases s.returns.peekValue? with
    | none => exact hR.respects_operands _
    | some v => exact hR.respects_push v

theorem respects_output (w : OutputWord) : Respects R w.run := by
  cases w with
  | print => exact (hR.respects_operands _).bind fun v => hR.respects_print _
  | printStack =>
    exact hR.respects_view (fun s t h => by rw [h.stack]) fun s => hR.respects_print _
  | newLine | space => exact hR.respects_print _
  | spaces | type => exact (hR.respects_operands _).bind fun x => hR.respects_print _
  | emit =>
    refine (hR.respects_operands _).bind fun v => ?_
    cases v.int?.bind OutputWord.character? with
    | none => exact hR.respects_operands _
    | some c => exact hR.respects_print _
  | words =>
    exact hR.respects_view (fun s t h => by rw [h.dictionary]) fun s => hR.respects_print _
  | see =>
    refine hR.respects_nextName.bind fun x => ?_
    refine (hR.respects_lookup x.2).bind fun y => ?_
    exact hR.respects_view (fun s t h => by rw [h.dictionary]) fun s => hR.respects_print _

/-! ## Definitions -/

theorem respects_currentDefinition : Respects R currentDefinition := by
  intro s t h
  unfold currentDefinition
  rw [(hR.agree h).definition, (hR.agree h).currentWord]
  cases s.definition? with
  | none => exact hR.respects_raise _ s t h
  | some d => exact .ok d h

theorem respects_edit (p : Definition.Edit α) : Respects R (edit p) := by
  refine hR.respects_currentDefinition.bind fun d => ?_
  cases p d with
  | ok a d' => exact (hR.setDefinition _).bind fun _ => Respects.pure a
  | error cause d' => exact (hR.setDefinition _).bind fun _ => hR.respects_raise cause

theorem respects_compile (location : Option Location) (op : Op) :
    Respects R (compile location op) :=
  (hR.respects_edit _).discard

theorem respects_control (w : ControlWord) : Respects R w.run :=
  hR.respects_view (fun s t h => by rw [h.location]) fun s => hR.respects_edit _

theorem respects_define (e : Entry) : Respects R (define e) := by
  intro s t h
  have hd := (hR.agree h).dictionary
  show Alike R (.ok (s.dictionary.insert e).1 _) (.ok (t.dictionary.insert e).1 _)
  rw [hd]
  exact .ok _ (hR.change h ({ · with dictionary := (s.dictionary.insert e).2 }))

theorem respects_modifyDictionary (f : Dictionary → Dictionary) :
    Respects R (modify fun s => { s with dictionary := f s.dictionary } : Action Unit) :=
  Respects.modify fun _ _ h => hR.change h fun w => { w with dictionary := f w.dictionary }

theorem respects_openDefinition : Respects R DefiningWord.openDefinition := by
  refine hR.respects_view (fun s t h => by rw [h.isCompiling]) fun s => ?_
  dsimp only
  split
  · exact hR.respects_raise_bind _ _
  · refine hR.source.bind fun _ => hR.respects_nextName.bind fun x => ?_
    refine (hR.respects_define _).bind fun index => ?_
    exact hR.source.bind fun _ => hR.setDefinition _

theorem respects_closeDefinition : Respects R DefiningWord.closeDefinition := by
  refine (hR.respects_edit _).bind fun r => ?_
  cases r with
  | error b => exact fun s t h => .error _ h
  | ok code =>
    refine hR.respects_currentDefinition.bind fun d => ?_
    refine (hR.setDefinition none).bind fun _ => ?_
    exact hR.respects_modifyDictionary fun dictionary => dictionary.modify d.word fun e => { e with
      body := .compiled code
      visible := true
      origin := some (.colon d.source) }

theorem respects_makeImmediate : Respects R DefiningWord.makeImmediate := by
  refine hR.respects_view (fun s t h => by rw [h.definition, h.dictionary, h.currentWord])
    fun s => ?_
  split
  · rename_i index _
    exact hR.respects_modifyDictionary (·.modify index fun e => { e with immediate := true })
  · exact hR.respects_raise _

theorem respects_forgetWord : Respects R DefiningWord.forgetWord := by
  refine hR.respects_nextName.bind fun x => (hR.respects_lookup x.2).bind fun y => ?_
  dsimp only
  split
  · refine hR.respects_view (fun s t h => by rw [h.currentWord]) fun s => ?_
    exact hR.respects_raise_bind _ _
  · exact hR.respects_modifyDictionary (·.forgetBackTo y.1)

theorem respects_reset : Respects R (modify Session.resetDefinitions : Action Unit) := by
  refine Respects.modify fun s t h => ?_
  have ha := hR.agree h
  have hc := hR.change h fun w => { w with
    stack := []
    dictionary := w.dictionary.forgetBackTo s.sessionMark
    cells := w.cells.truncate s.cellMark }
  have ht : t.resetDefinitions = t.setWorkspace { t.workspace with
      stack := []
      dictionary := t.dictionary.forgetBackTo s.sessionMark
      cells := t.cells.truncate s.cellMark } := by
    rw [← ha.sessionMark, ← ha.cellMark]
    rfl
  rw [ht]
  exact hc

theorem respects_defining (w : DefiningWord) : Respects R w.run := by
  cases w with
  | colon => exact hR.respects_openDefinition
  | semicolon => exact hR.respects_closeDefinition
  | constant =>
    refine (hR.respects_operands _).bind fun _ => hR.respects_nextName.bind fun x => ?_
    exact (hR.respects_operands _).bind fun v => (hR.respects_define _).discard
  | «variable» =>
    refine hR.respects_nextName.bind fun x => (hR.respects_allot 1).bind fun address => ?_
    exact (hR.respects_define _).discard
  | immediate => exact hR.respects_makeImmediate
  | forget => exact hR.respects_forgetWord
  | reset => exact hR.respects_reset

theorem respects_builtin (w : Builtin) : Respects R w.run := by
  cases w with
  | stack w => exact hR.respects_operands _
  | returns w => exact hR.respects_returns w
  | math w => exact hR.respects_operands _
  | memory w => exact hR.respects_memory w
  | defining w => exact hR.respects_defining w
  | control w => exact hR.respects_control w
  | output w => exact hR.respects_output w

theorem respects_callBuiltin (name : String) (word : Builtin) :
    Respects R (callBuiltin name word) := by
  have enter : Respects R (modify fun s => { s with
      calls := ⟨name, s.location.getD .unspecified⟩ :: s.calls
      builtin := some name } : Action Unit) :=
    Respects.modify fun _ _ h => hR.change h fun w => { w with
      calls := ⟨name, w.location.getD .unspecified⟩ :: w.calls
      builtin := some name }
  have leave : Respects R (modify fun s => { s with
      calls := s.calls.tail
      builtin := none } : Action Unit) :=
    Respects.modify fun _ _ h => hR.change h fun w => { w with
      calls := w.calls.tail
      builtin := none }
  refine enter.bind fun _ => (hR.respects_builtin word).bind fun _ => ?_
  exact leave.bind fun _ => hR.finishWord name

end Congruence

end StackLang
