import StackLang.Proofs.Saved.Recorded

/-!
# Tokens outside of a definition

What the tokens of a saved session do: they push a value and define a word for it, open a
definition, make a word immediate, and store a value in the cell of a variable.

* `yields_colon`, `yields_constant`, `yields_variable`, `yields_immediate`: words are defined.
* `yields_number`, `yields_string`, `yields_operands`: values are pushed.
* `yields_store`: a cell gets its value.
-/

namespace StackLang

namespace Action

open Session

variable {s t : Session} {tokens : List Token} {definition : Option Definition}
  {rest : List Pending} {token named : Token} {word name : String} {index : Nat} {e : Entry}

/-! ## Names and entries -/

theorem yields_nextName (hn : named.name? = some name) :
    Yields nextName (s.reading (named :: tokens) definition rest) (named.location, name)
      (s.reading tokens definition rest) := by
  have ht : Yields nextToken? (s.reading (named :: tokens) definition rest) (some named)
      (s.reading tokens definition rest) := by
    rintro s' ⟨builtin, calls, output, observers, rfl⟩
    exact ⟨_, rfl, builtin, calls, output, observers, rfl⟩
  refine ht.bind ?_
  dsimp only
  rw [hn]
  exact Yields.pure _ _

theorem stops_nextName (hn : ∀ t ∈ tokens.head?, t.name? = none) :
    Stops nextName (s.reading tokens definition rest) := by
  rintro s' ⟨builtin, calls, output, observers, rfl⟩
  unfold nextName
  rw [bind_apply]
  cases tokens with
  | nil => exact ⟨_, _, rfl⟩
  | cons t tokens =>
    have hn := hn t rfl
    dsimp only [nextToken?, reading, Pending.nextToken?]
    rw [hn]
    exact ⟨_, _, rfl⟩

theorem yields_define (s : Session) (e : Entry) :
    Yields (define e) s s.dictionary.size (s.knowing s.location (s.dictionary.insert e).2) := by
  rintro s' ⟨builtin, calls, output, observers, rfl⟩
  exact ⟨_, rfl, builtin, calls, output, observers, rfl⟩

theorem yields_currentSource : Yields (discard currentSource) (s.reading tokens definition rest) ()
    (s.reading tokens definition rest) := by
  rintro s' ⟨builtin, calls, output, observers, rfl⟩
  exact ⟨_, rfl, builtin, calls, output, observers, rfl⟩

theorem yields_openDefinition (hn : named.name? = some name) :
    Yields DefiningWord.openDefinition (s.reading (named :: tokens) none rest) ()
      ((s.knowing s.location
        (s.dictionary.insert (Entry.reserved named.location name)).2).reading tokens
          (some (.opened s.dictionary.size (Text.uppercase name) named.location)) rest) := by
  refine Yields.view fun s' hs => ?_
  rw [if_neg (by rw [hs.isCompiling]; exact Bool.false_ne_true)]
  refine yields_currentSource.bind ((yields_nextName hn).bind ?_)
  refine (yields_define _ _).bind ?_
  refine (yields_currentSource (s := s.knowing s.location _)).bind ?_
  rintro s' ⟨builtin, calls, output, observers, rfl⟩
  exact ⟨_, rfl, builtin, calls, output, observers, rfl⟩

theorem stops_openDefinition (hn : ∀ t ∈ tokens.head?, t.name? = none) :
    Stops DefiningWord.openDefinition (s.reading tokens none rest) := by
  refine Stops.view fun s' hs => ?_
  rw [if_neg (by rw [hs.isCompiling]; exact Bool.false_ne_true)]
  exact Stops.after yields_currentSource ((stops_nextName hn).bind _)

/-! ## Words -/

/-- The word that a token stands for is built in, and runs outside of a definition. -/
structure Runs (s : Session) (token : Token) (w : Builtin) : Prop where
  found : ∃ word index e, token.lexeme = .word word ∧ s.dictionary.find? word = some (index, e) ∧
    e.body = .builtin w ∧ e.compileOnly = false

/-- Outside of a definition tokens are not recorded. -/
theorem yields_outside {s' : Session} {tokens' : List Token} (hf : s.frame = none)
    (h : Yields (runLexeme token.location token.lexeme)
      ((s.knowing (some token.location) s.dictionary).reading tokens none rest) ()
      (s'.reading tokens' definition rest)) :
    Yields operation (s.reading (token :: tokens) none rest) ()
      (s'.reading tokens' definition rest) :=
  yields_token hf h

theorem Runs.yields {w : Builtin} {s' : Session} {tokens' : List Token}
    {definition' : Option Definition} (h : Runs s token w) (hf : s.frame = none)
    (hw : Yields w.run ((s.knowing (some token.location) s.dictionary).reading tokens none rest) ()
      (s'.reading tokens' definition' rest)) :
    Yields operation (s.reading (token :: tokens) none rest) ()
      (s'.reading tokens' definition' rest) := by
  obtain ⟨word, index, e, hx, he, hb, hc⟩ := h.found
  refine yields_outside hf ?_
  rw [hx]
  refine yields_word he hb (fun h => ?_) (fun h => ?_) hw
  · rw [hc] at h
    cases h
  · cases h

theorem Runs.stops {w : Builtin} (h : Runs s token w) (hf : s.frame = none)
    (hw : Stops w.run ((s.knowing (some token.location) s.dictionary).reading tokens none rest)) :
    Stops operation (s.reading (token :: tokens) none rest) := by
  obtain ⟨word, index, e, hx, he, hb, hc⟩ := h.found
  refine stops_token hf ?_
  rw [hx]
  exact stops_word he hb (fun h => by cases h) hw

theorem yields_colon (h : Runs s token (.defining .colon)) (hf : s.frame = none)
    (hn : named.name? = some name) :
    Yields operation (s.reading (token :: named :: tokens) none rest) ()
      ((s.knowing (some token.location)
        (s.dictionary.insert (Entry.reserved named.location name)).2).reading tokens
          (some (.opened s.dictionary.size (Text.uppercase name) named.location)) rest) :=
  h.yields hf (yields_openDefinition (s := s.knowing _ s.dictionary) hn)

/-- A value is on the stack and a name comes next. -/
theorem yields_constant {v : Value} {stack : DataStack} (h : Runs s token (.defining .constant))
    (hf : s.frame = none) (hs : s.stack = v :: stack) (hn : named.name? = some name) :
    Yields operation (s.reading (token :: named :: tokens) none rest) ()
      (({ s with stack } : Session).knowing (some token.location)
        (s.dictionary.insert (Entry.ofConstant named.location name v)).2 |>.reading
          tokens none rest) := by
  have hr : Yields (operands (.require 1))
      ((s.knowing (some token.location) s.dictionary).reading (named :: tokens) none rest) ()
      ((s.knowing (some token.location) s.dictionary).reading (named :: tokens) none rest) :=
    yields_operands (Operand.require_of_le (by simp [reading, knowing, hs]))
  have hp : Yields (operands .pop)
      ((s.knowing (some token.location) s.dictionary).reading tokens none rest) v
      ((({ s with stack } : Session).knowing (some token.location) s.dictionary).reading tokens none
        rest) :=
    yields_operands (by simp [reading, knowing, hs])
  refine h.yields hf (hr.bind ?_)
  exact (yields_nextName (s := s.knowing _ s.dictionary) hn).bind
    (hp.bind (yields_define _ _).discard)

theorem yields_variable (h : Runs s token (.defining .variable)) (hf : s.frame = none)
    {cells : CellStore} (hc : s.cells.allot? 1 = some (s.cells.here, cells))
    (hn : named.name? = some name) :
    Yields operation (s.reading (token :: named :: tokens) none rest) ()
      (({ s with cells } : Session).knowing (some token.location)
        (s.dictionary.insert (Entry.ofVariable named.location name s.cells.here)).2 |>.reading
          tokens none rest) := by
  refine h.yields hf ?_
  refine (yields_nextName (s := (s.knowing _ s.dictionary)) hn).bind ?_
  have ha : Yields (allot 1)
      ((s.knowing (some token.location) s.dictionary).reading tokens none rest) s.cells.here
      ((({ s with cells } : Session).knowing (some token.location) s.dictionary).reading tokens
        none rest) := by
    rintro s' ⟨builtin, calls, output, observers, rfl⟩
    unfold allot
    dsimp only [reading, knowing]
    rw [hc]
    exact ⟨_, rfl, builtin, calls, output, observers, rfl⟩
  exact ha.bind (yields_define _ _).discard

theorem yields_immediate (h : Runs s token (.defining .immediate)) (hf : s.frame = none)
    (hi : s.dictionary.latestUserWord? = some index) :
    Yields operation (s.reading (token :: tokens) none rest) ()
      ((s.knowing (some token.location) (s.dictionary.marking index true)).reading tokens none rest)
      := by
  refine h.yields hf ?_
  rintro s' ⟨builtin, calls, output, observers, rfl⟩
  show ∃ t', DefiningWord.makeImmediate _ = _ ∧ _
  unfold DefiningWord.makeImmediate
  rw [StackLang.get_bind]
  dsimp only [reading, knowing, definition?, List.head?, Option.bind_some, Option.map_none,
    Option.none_or]
  rw [hi]
  refine ⟨_, rfl, builtin, calls, output, observers, ?_⟩
  simp [Dictionary.marking]

/-! ## Values -/

theorem yields_number {n : Number} (hf : s.frame = none) (hx : token.lexeme = .number n) :
    Yields operation (s.reading (token :: tokens) none rest) ()
      (({ s with stack := .ofNumber n :: s.stack } : Session).knowing (some token.location)
        s.dictionary |>.reading tokens none rest) := by
  refine yields_outside hf ?_
  rw [hx]
  refine Yields.view fun s' hs => ?_
  rw [if_neg (by rw [hs.isCompiling]; exact Bool.false_ne_true)]
  exact yields_operands rfl

theorem yields_string {text : String} (hf : s.frame = none)
    (hx : token.lexeme = .string .push text) :
    Yields operation (s.reading (token :: tokens) none rest) ()
      (({ s with stack := .int (Int64.ofNat text.length) :: .string text :: s.stack } :
        Session).knowing (some token.location) s.dictionary |>.reading tokens none rest) := by
  have hpush (s : Session) (v : Value) : Yields (literal token.location v)
      (s.reading tokens none rest) ()
      (({ s with stack := v :: s.stack } : Session).reading tokens none rest) := by
    refine Yields.view fun s' hs => ?_
    rw [if_neg (by rw [hs.isCompiling]; exact Bool.false_ne_true)]
    exact yields_operands rfl
  refine yields_outside hf ?_
  rw [hx]
  exact (hpush _ _).bind (hpush _ _)

/-- A word that works on the stack. -/
theorem yields_stack {w : Builtin} {p : Operand Unit} {stack : DataStack} (h : Runs s token w)
    (hw : w.run = operands p) (hf : s.frame = none) (hp : p s.stack = .ok () stack) :
    Yields operation (s.reading (token :: tokens) none rest) ()
      (({ s with stack } : Session).knowing (some token.location) s.dictionary |>.reading
        tokens none rest) := by
  refine h.yields hf ?_
  rw [hw]
  exact yields_operands hp

/-- A value and an address are on the stack. -/
theorem yields_store {v : Value} {a : UInt64} {cell : Nat} {stack : DataStack}
    (h : Runs s token (.memory .store)) (hf : s.frame = none)
    (hs : s.stack = .address a :: v :: stack) (ha : a.toNat = cell)
    (hc : s.cells.holds cell = true) :
    Yields operation (s.reading (token :: tokens) none rest) ()
      (({ s with stack, cells := s.cells.put cell v } : Session).knowing (some token.location)
        s.dictionary |>.reading tokens none rest) := by
  subst ha
  refine h.yields hf ?_
  have hp : Yields (operands do
        Operand.require 2
        let address ← Operand.popAddress
        let v ← Operand.pop
        pure (address, v))
      ((s.knowing (some token.location) s.dictionary).reading tokens none rest) (a, v)
      ((({ s with stack } : Session).knowing (some token.location) s.dictionary).reading tokens none
        rest) :=
    yields_operands (by
      dsimp only [reading, knowing]
      rw [hs]
      rfl)
  refine hp.bind ?_
  rintro s' ⟨builtin, calls, output, observers, rfl⟩
  dsimp only [MemoryWord.storeCell, reading, knowing]
  rw [hc]
  exact ⟨_, rfl, builtin, calls, output, observers, rfl⟩

/-! ## Running words -/

/-- The word of an entry that is compiled gets its frame. -/
theorem yields_enter {code : Code} {returns : ReturnStack} (hf : s.frame = none)
    (hx : token.lexeme = .word word) (he : s.dictionary.find? word = some (index, e))
    (hb : e.body = .compiled code) (hc : e.compileOnly = false)
    (hr : s.returns.push? (.call none) = some returns) :
    Yields operation (s.reading (token :: tokens) none rest) ()
      (((executing s ⟨index, e.name, code, 0⟩ returns).knowing (some token.location)
        s.dictionary).reading tokens none rest) := by
  refine yields_outside hf ?_
  rw [hx]
  refine yields_compiledWord he hb (fun h => ?_) nofun (hf.symm ▸ hr)
  rw [hc] at h
  cases h

variable {f : CallFrame} {l : Option Location}

theorem yields_push {v : Value} (hf : s.frame = some f)
    (hx : f.code[f.next]? = some ⟨l, .push v⟩) : Yields operation s () { s with
      stack := v :: s.stack
      frame := some { f with next := f.next + 1 }
      location := l.or s.location } := by
  rintro s' ⟨builtin, calls, output, observers, rfl⟩
  rw [operation_of_frame (s := { s with builtin, calls, output, observers }) hf,
    runInstruction_eq hx]
  exact ⟨_, rfl, builtin, calls, output, observers, rfl⟩

theorem yields_exit {caller : Option CallFrame} {returns : ReturnStack} (hf : s.frame = some f)
    (hx : f.code[f.next]? = some ⟨l, .exit⟩) (hr : s.returns.exitCall = (some caller, returns)) :
    Yields operation s () { s with
      frame := caller
      returns
      location := l.or s.location } := by
  intro s' hs
  have hf' : s'.frame = some f := hs.frame.trans hf
  rw [operation_of_frame hf', runInstruction_eq hx]
  show ∃ t', leaveWord f _ = _ ∧ _
  rw [leaveWord_eq]
  dsimp only
  rw [hs.returns, hr]
  obtain ⟨observers, ho⟩ := exists_finishWord f.name { s' with
    frame := caller
    location := l.or s'.location
    returns
    calls := s'.calls.tail }
  refine ⟨_, ho, ?_⟩
  obtain ⟨builtin, calls, output, _, rfl⟩ := hs
  exact ⟨builtin, calls.tail, output, observers, rfl⟩

end Action

end StackLang
