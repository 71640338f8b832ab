import StackLang.Proofs.Call.Effects
import StackLang.Proofs.Fault.Atomicity

/-!
# What a session knows of words

The dictionary, the marks that `reset` goes back to, how far the memory reaches, and the code that
is in flight: that of the definition that is being built, and that of the words that are running.
Which values lie on the stacks and in the cells, what was printed and where in a source the session
is does not matter here.

* `Session.Outline`: the part of a session that is looked at.
* `Revision`: what a built-in word does to it.
* `revision_of_run`: every built-in word that succeeds does that.
-/

namespace StackLang

/-! ## The dictionary -/

namespace Dictionary

variable (d : Dictionary)

@[simp] theorem size_insert (e : Entry) : (d.insert e).2.size = d.size + 1 := by
  simp [insert, size]

@[simp] theorem size_modify (index : Nat) (f : Entry → Entry) :
    (d.modify index f).size = d.size := by
  simp [modify, size]

@[simp] theorem size_forgetBackTo (mark : Nat) : (d.forgetBackTo mark).size = min mark d.size := by
  simp [forgetBackTo, size]

theorem get?_insert_eq (e : Entry) (i : Nat) :
    (d.insert e).2.get? i =
      if i = d.size then some { e with name := Text.uppercase e.name, mark := d.size }
      else d.get? i :=
  Array.getElem?_push

theorem get?_modify_eq (index : Nat) (f : Entry → Entry) (i : Nat) :
    (d.modify index f).get? i = if index = i then (d.get? i).map f else d.get? i := by
  simp [modify, get?, Array.getElem?_modify]

theorem get?_forgetBackTo_eq (mark i : Nat) :
    (d.forgetBackTo mark).get? i = if i < mark then d.get? i else none := by
  simp only [forgetBackTo, get?, Array.take_eq_extract, Array.getElem?_extract]
  grind

variable {d}

theorem get?_eq_none_iff {i : Nat} : d.get? i = none ↔ d.size ≤ i := by
  simp [get?, size]

theorem lt_size_of_get? {i : Nat} {e : Entry} (h : d.get? i = some e) : i < d.size := by
  refine Nat.lt_of_not_le fun hn => ?_
  rw [get?_eq_none_iff.2 hn] at h
  cases h

@[ext] theorem ext_get? {d d' : Dictionary} (h : ∀ i, d.get? i = d'.get? i) : d = d' := by
  obtain ⟨entries⟩ := d
  obtain ⟨entries'⟩ := d'
  exact congrArg Dictionary.mk (Array.ext_getElem? h)

theorem forgetBackTo_of_le {mark : Nat} (h : d.size ≤ mark) : d.forgetBackTo mark = d := by
  ext1 i
  rw [get?_forgetBackTo_eq]
  split
  · rfl
  · exact (get?_eq_none_iff.2 (by omega)).symm

theorem forgetBackTo_forgetBackTo (mark mark' : Nat) :
    (d.forgetBackTo mark).forgetBackTo mark' = d.forgetBackTo (min mark mark') := by
  ext1 i
  simp only [get?_forgetBackTo_eq]
  grind

end Dictionary

/-! ## Words in flight -/

/-- The entry of a word that is being built. -/
def Entry.reserved (location : Location) (name : String) : Entry :=
  { Entry.ofBody (some location) name (.compiled #[]) with visible := false }

/-- The entry with the code of its definition. -/
def Entry.filled (code : Code) (source : String) (e : Entry) : Entry :=
  { e with body := .compiled code, visible := true, origin := some (.colon source) }

namespace Session

structure Outline where
  dictionary : Dictionary
  /-- The address of the next memory cell. -/
  here : Nat
  sessionMark : Nat
  cellMark : Nat
  /-- The reserved entry of the open definition, and the code that it has so far. -/
  definition : Option (Nat × Code)
  /-- The entries of the words that are running, and their code, the innermost first. -/
  running : List (Nat × Code)

def outline (s : Session) : Outline where
  dictionary := s.dictionary
  here := s.cells.here
  sessionMark := s.sessionMark
  cellMark := s.cellMark
  definition := s.definition?.map fun d => (d.word, d.code)
  running := (s.frame.toList ++ ReturnStack.callers s.returns.items).map fun f => (f.word, f.code)

/-- The word that `IMMEDIATE` is for. -/
def Outline.latest? (o : Outline) : Option Nat :=
  (o.definition.map (·.1)).or o.dictionary.latestUserWord?

/-- Back at the marks. -/
def Outline.restored (o : Outline) : Outline :=
  { o with
    dictionary := o.dictionary.forgetBackTo o.sessionMark
    here := min o.cellMark o.here }

/-- Without the evaluation in flight, and without the entry of the open definition and those behind
it. -/
def Outline.rolledBack (o : Outline) : Outline :=
  { o with
    dictionary := match o.definition with
      | some (index, _) => o.dictionary.forgetBackTo index
      | none => o.dictionary
    definition := none
    running := [] }

/-- The name that comes next in the first source. -/
def nextName? (sources : List Pending) : Option String :=
  sources.head?.bind fun source => source.tokens.head?.bind Token.name?

end Session

open Session

/-- The word of an entry with this index and code has a call of the entry `i`. -/
def Code.Calls (code : Code) (word i : Nat) : Prop :=
  ∃ x ∈ code, x.op.callee? word = some i

/-- What a built-in word does when `next?` is the name that comes next in the source. -/
inductive Revision (next? : Option String) (o : Outline) : Builtin → Outline → Prop
  /-- Most words only allot memory, if they do that. -/
  | keeps {w : Builtin} (here : Nat) (hw : ∀ d, w ≠ .defining d) (h : o.here ≤ here) :
    Revision next? o w { o with here }
  | opens (location : Location) (name : String) (h : o.definition = none) :
    Revision next? o (.defining .colon) { o with
      dictionary := (o.dictionary.insert (Entry.reserved location name)).2
      definition := some (o.dictionary.size, #[]) }
  | closes {index : Nat} {code : Code} (source : String) (h : o.definition = some (index, code)) :
    Revision next? o (.defining .semicolon) { o with
      dictionary := o.dictionary.modify index (Entry.filled (code.push ⟨none, .exit⟩) source)
      definition := none }
  | constant (location : Location) (name : String) (v : Value) :
    Revision next? o (.defining .constant) { o with
      dictionary := (o.dictionary.insert
        (DefiningWord.valueEntry location name v " -- value" (.constant v))).2 }
  | «variable» (location : Location) (name : String) :
    Revision next? o (.defining .variable) { o with
      dictionary := (o.dictionary.insert (DefiningWord.valueEntry location name
        (.address (UInt64.ofNat o.here)) " -- address" (.variable o.here))).2
      here := o.here + 1 }
  | makesImmediate {index : Nat} (h : o.latest? = some index) :
    Revision next? o (.defining .immediate) { o with
      dictionary := o.dictionary.modify index fun e => { e with immediate := true } }
  | forgets {name : String} {index : Nat} {e : Entry} (hn : next? = some name)
    (h : o.dictionary.find? name = some (index, e)) (hb : e.isBuiltin = false) :
    Revision next? o (.defining .forget) { o with
      dictionary := o.dictionary.forgetBackTo index }
  | resets : Revision next? o (.defining .reset) o.restored
  /-- A control word can only add a call of the word that is being built. -/
  | builds {w : ControlWord} {index : Nat} {code code' : Code}
    (h : o.definition = some (index, code))
    (hc : ∀ i, code'.Calls index i → i = index ∨ code.Calls index i) :
    Revision next? o (.control w) { o with definition := some (index, code') }

namespace Session

open StackLang.Action

variable {s t : Session}

/-- The second session has more memory allotted at most. -/
structure Steady (s t : Session) : Prop where
  here : s.cells.here ≤ t.cells.here
  outline : t.outline = { s.outline with here := t.cells.here }

theorem outline_resetDefinitions (s : Session) :
    s.resetDefinitions.outline = s.outline.restored := by
  rw [Outline.restored, show s.outline.cellMark = s.cellMark from rfl,
    show s.outline.here = s.cells.here from rfl, ← CellStore.here_truncate]
  rfl

theorem outline_reset (s : Session) :
    s.reset.outline = { s.outline.restored with definition := none, running := [] } := by
  rw [← outline_resetDefinitions]
  rfl

theorem Steady.refl (s : Session) : s.Steady s :=
  ⟨Nat.le_refl _, rfl⟩

theorem Steady.revision {next? : Option String} {w : Builtin} (h : s.Steady t)
    (hw : ∀ d, w ≠ .defining d) : Revision next? s.outline w t.outline :=
  h.outline ▸ .keeps _ hw h.here

theorem insensitive_steady (s : Session) : Insensitive s.Steady fun _ _ => True where
  fails := fun _ _ => trivial
  data := fun _ hh h => ⟨Nat.le_trans h.here hh, by
    have ho := h.outline
    simp_all [Session.outline, definition?]⟩
  prints := fun _ h => ⟨h.here, h.outline⟩
  observe := fun _ h => ⟨h.here, h.outline⟩
  token := by
    intro t source behind rest token hs ht h
    refine ⟨h.here, ?_⟩
    rw [← h.outline]
    have hd := Pending.definition_of_nextToken? ht
    simp [Session.outline, definition?, hs, hd]
  putAside := by
    intro t v returns hr h
    refine ⟨h.here, ?_⟩
    rw [← h.outline]
    simp [Session.outline, definition?, ReturnStack.items_of_push? hr, ReturnStack.callers]
  takeBack := by
    intro t v returns hr h
    refine ⟨h.here, ?_⟩
    rw [← h.outline]
    simp [Session.outline, definition?, ReturnStack.items_of_popValue? hr, ReturnStack.callers]

/-- A computation that keeps the outline of every session keeps that of this one. -/
theorem steady_of_triple {α : Type} {p : Action α} {a : α}
    (h : Triple s.Steady p (fun _ => s.Steady) fun _ _ => True) (hp : p s = .ok a t) :
    s.Steady t := by
  have := h s (.refl s)
  rwa [hp] at this

end Session

/-! ## Calls in code -/

namespace Code

variable {code : Code} {word i : Nat}

theorem calls_push {x : Instruction} :
    Code.Calls (code.push x) word i ↔ code.Calls word i ∨ x.op.callee? word = some i := by
  simp only [Code.Calls, Array.mem_push]
  constructor
  · rintro ⟨y, hy | rfl, hi⟩
    · exact .inl ⟨y, hy, hi⟩
    · exact .inr hi
  · rintro (⟨y, hy, hi⟩ | hi)
    · exact ⟨y, .inl hy, hi⟩
    · exact ⟨x, .inr rfl, hi⟩

theorem Calls.of_push {x : Instruction} (hx : x.op.callee? word = none)
    (h : Code.Calls (code.push x) word i) : code.Calls word i := by
  rw [calls_push, hx] at h
  exact h.resolve_right (Option.some_ne_none i ·.symm)

/-- A change of one instruction that adds no call. -/
theorem Calls.of_modify {index : Nat} {f : Instruction → Instruction}
    (hf : ∀ x, (f x).op.callee? word = some i → x.op.callee? word = some i)
    (h : Code.Calls (code.modify index f) word i) : code.Calls word i := by
  obtain ⟨x, hx, hi⟩ := h
  obtain ⟨j, hj⟩ := Array.mem_iff_getElem?.1 hx
  rw [Array.getElem?_modify] at hj
  split at hj
  · obtain ⟨y, hy, rfl⟩ := Option.map_eq_some_iff.1 hj
    exact ⟨y, Array.mem_of_getElem? hy, hf y hi⟩
  · exact ⟨x, Array.mem_of_getElem? hj, hi⟩

theorem callee?_setTarget (op : Op) (target : Target) :
    (op.setTarget target).callee? word = op.callee? word := by
  cases op <;> rfl

theorem Calls.of_retarget {target index : Nat} (h : (code.retarget target index).Calls word i) :
    code.Calls word i :=
  h.of_modify fun x hx => by rwa [callee?_setTarget] at hx

theorem Calls.of_settle {direction : LoopDirection} {behind marker : Nat}
    (h : (code.settle direction behind marker).Calls word i) : code.Calls word i := by
  refine h.of_modify fun x hx => ?_
  have hn : (Definition.settleLoop direction behind x.op).callee? word = none := by
    unfold Definition.settleLoop
    split <;> rfl
  rw [hn] at hx
  cases hx

theorem Calls.of_retargetAll {target : Nat} {indices : List Nat}
    (h : (code.retargetAll target indices).Calls word i) : code.Calls word i := by
  induction indices generalizing code with
  | nil => exact h
  | cons index indices ih => exact (ih h).of_retarget

end Code

namespace Definition

/-- The calls of the code, beside those of the word that is being built. -/
def CallsWithin (d d' : Definition) : Prop :=
  ∀ i, d'.code.Calls d.word i → i = d.word ∨ d.code.Calls d.word i

variable {d d' : Definition}

theorem CallsWithin.of_push {x : Instruction} (hc : d'.code = d.code.push x)
    (hx : x.op.callee? d.word = none) : d.CallsWithin d' := by
  intro i hi
  rw [hc] at hi
  exact .inr (hi.of_push hx)

theorem CallsWithin.of_code (hc : d'.code = d.code) : d.CallsWithin d' :=
  fun _ hi => .inr (hc ▸ hi)

/-- A control word can only add a call of the word that is being built. -/
theorem callsWithin_compileStep (l : Option Location) (d : Definition) (w : ControlWord) :
    After d.CallsWithin (w.compileStep l d) := by
  cases w with
  | openIf => exact .of_push rfl rfl
  | openElse =>
    simp only [ControlWord.compileStep, compileElse_eq]
    split
    · exact fun i hi => .inr (hi.of_retarget.of_push rfl)
    · exact .of_code rfl
    · exact .of_code rfl
  | closeThen =>
    simp only [ControlWord.compileStep, compileThen_eq]
    split
    · exact fun i hi => .inr hi.of_retarget
    · exact fun i hi => .inr hi.of_retarget
    · exact .of_code rfl
    · exact .of_code rfl
  | openBegin => exact .of_code rfl
  | closeUntil =>
    simp only [ControlWord.compileStep, compileUntil_eq]
    split <;> first | exact .of_push rfl rfl | exact .of_code rfl
  | closeAgain =>
    simp only [ControlWord.compileStep, compileAgain_eq]
    split <;> first | exact .of_push rfl rfl | exact .of_code rfl
  | openWhile =>
    simp only [ControlWord.compileStep, compileWhile_eq]
    split <;> first | exact .of_push rfl rfl | exact .of_code rfl
  | closeRepeat =>
    simp only [ControlWord.compileStep, compileRepeat_eq]
    split
    · exact fun i hi => .inr (hi.of_retarget.of_push rfl)
    all_goals exact .of_code rfl
  | openDo | openQueryDo => exact .of_push rfl rfl
  | closeLoop | closePlusLoop =>
    simp only [ControlWord.compileStep, compileLoop_eq]
    split
    · exact fun i hi => .inr (hi.of_retargetAll.of_settle.of_push rfl)
    all_goals exact .of_code rfl
  | index | outerIndex =>
    simp only [ControlWord.compileStep, compileLoopIndex_eq]
    split
    · exact .of_code rfl
    · exact .of_push rfl rfl
  | leave =>
    simp only [ControlWord.compileStep, compileLeave_eq]
    split
    · exact .of_push rfl rfl
    · exact .of_code rfl
  | unloop =>
    simp only [ControlWord.compileStep, compileUnloop_eq]
    split
    · exact .of_code rfl
    · exact .of_push rfl rfl
  | exit => exact .of_push rfl rfl
  | recurse =>
    exact fun i hi => (Code.calls_push.1 hi).symm.imp_left fun h => (Option.some.inj h).symm

end Definition

end StackLang
