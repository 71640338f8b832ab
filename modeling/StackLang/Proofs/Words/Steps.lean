import StackLang.Proofs.Words.Revisions

/-!
# What a step does to the dictionary

An operation runs one built-in word at most, and that does what it does alone.  Any other operation
leaves the dictionary and the memory as they are: it compiles into the definition, enters or leaves
a word, or only moves on.

* `Session.nextBuiltin?`: the built-in word that the next operation runs.
* `Passage`: what an operation does that runs no built-in word.
* `turn_of_step`: every step that succeeds does one or the other.
-/

namespace StackLang

open Session

/-- The name that a token looks up when it is compiled.  A text that is printed later is compiled
with a call of `TYPE`. -/
def Lexeme.compiledName? : Lexeme → Option String
  | .word name => some name
  | .string .print _ => some "TYPE"
  | _ => none

/-- What an operation does that runs no built-in word, when `name?` is the name that it may compile
a call of. -/
inductive Passage (name? : Option String) (o : Outline) : Outline → Prop
  | stays : Passage name? o o
  /-- At most the word is called that the name stands for. -/
  | compiles {index : Nat} {code code' : Code} (h : o.definition = some (index, code))
    (hc : ∀ i, code'.Calls index i → code.Calls index i ∨
      ∃ name e, name? = some name ∧ o.dictionary.find? name = some (i, e)) :
    Passage name? o { o with definition := some (index, code') }
  | enters {index : Nat} {e : Entry} {code : Code} (h : o.dictionary.get? index = some e)
    (hb : e.body = .compiled code) :
    Passage name? o { o with running := (index, code) :: o.running }
  | leaves {f : Nat × Code} {rest : List (Nat × Code)} (h : o.running = f :: rest) :
    Passage name? o { o with running := rest }

/-- What an operation does that runs this built-in word, with this name behind it in the source, or
that may compile a call of `name?`. -/
def Turn : Option (Builtin × Option String) → (name? : Option String) → Outline → Outline → Prop
  | some (w, next?), _, o, o' => Revision next? o w o'
  | none, name?, o, o' => Passage name? o o'

namespace Session

/-- The built-in word at an index, and the name that it finds behind it in the source. -/
def builtinAt? (s : Session) (index : Nat) : Option (Builtin × Option String) :=
  (s.dictionary.get? index).bind fun e =>
    match e.body with
    | .builtin w => some (w, nextName? s.sources)
    | .compiled _ => none

/-- The entry that a token runs, if it is a name and not to be compiled. -/
def namedCallee? (s : Session) (token : Token) : Option Nat :=
  match token.lexeme with
  | .word name => (s.dictionary.find? name).bind fun (index, e) =>
    if s.isCompiling && !e.immediate then none else some index
  | _ => none

/-- The built-in word that the next operation runs, if it runs one, and the name that the word finds
behind it in the source. -/
def nextBuiltin? (s : Session) : Option (Builtin × Option String) :=
  match s.frame with
  | some _ => s.callee?.bind s.builtinAt?
  | none =>
    match s.sources with
    | [] => none
    | source :: rest =>
      match source.nextToken? with
      | none => none
      | some (token, behind) =>
        (s.namedCallee? token).bind (builtinAt? { s with sources := behind :: rest })

/-- The name that the next operation looks up if it compiles a call. -/
def compiledName? (s : Session) : Option String :=
  match s.frame with
  | some _ => none
  | none => (s.sources.head?.bind (·.nextToken?)).bind (·.1.lexeme.compiledName?)

open StackLang.Action

variable {s t : Session} {f g : CallFrame} {name? : Option String}

/-! ## Calls -/

/-- A built-in word runs in a session with the same outline, and one with the same outline is
left. -/
theorem revision_of_callBuiltin {name : String} {w : Builtin}
    (h : callBuiltin name w s = .ok () t) :
    Revision (nextName? s.sources) s.outline w t.outline := by
  unfold callBuiltin at h
  rw [modify_bind] at h
  obtain ⟨_, u, hu, h⟩ := exists_of_bind h
  rw [modify_bind] at h
  obtain ⟨observers, ho⟩ := exists_finishWord name { u with
    calls := u.calls.tail
    builtin := none }
  rw [ho] at h
  cases h
  have hr := revision_of_run hu
  exact hr

theorem exists_of_callCompiled {index : Nat} {name : String} {code : Code}
    (h : callCompiled index name code s = .ok () t) :
    ∃ returns, s.returns.push? (.call s.frame) = some returns ∧ t = { s with
      returns
      calls := ⟨name, s.location.getD .unspecified⟩ :: s.calls
      frame := some ⟨index, name, code, 0⟩ } := by
  rw [callCompiled_eq] at h
  cases hr : s.returns.push? (.call s.frame) with
  | none =>
    rw [hr] at h
    cases h
  | some returns =>
    rw [hr] at h
    cases h
    exact ⟨returns, rfl, rfl⟩

/-- The word at an index runs, or it is entered. -/
theorem turn_of_call {index : Nat} (h : call index s = .ok () t) :
    Turn (s.builtinAt? index) name? s.outline t.outline := by
  unfold call at h
  rw [StackLang.get_bind] at h
  unfold builtinAt?
  cases he : s.dictionary.get? index with
  | none =>
    rw [he] at h
    cases h
  | some e =>
    rw [he] at h
    obtain ⟨_, u, hu, h⟩ := exists_of_bind h
    cases hu
    cases hb : e.body with
    | builtin w =>
      rw [hb] at h
      rw [Option.bind_some, hb]
      have hr := revision_of_callBuiltin h
      exact hr
    | compiled code =>
      rw [hb] at h
      obtain ⟨returns, hr, rfl⟩ := exists_of_callCompiled h
      have ho : (index, code) :: s.outline.running =
          (⟨index, e.name, code, 0⟩ :: ReturnStack.callers returns.items).map
            fun f : CallFrame => (f.word, f.code) := by
        simp [outline, ReturnStack.items_of_push? hr, ReturnStack.callers_call]
      have hp : Passage name? _ _ := Passage.enters (o := s.outline) he hb
      rw [ho] at hp
      rw [Option.bind_some, hb]
      exact hp

/-! ## Operations of the running word -/

/-- The running word goes on, and its callers wait as before. -/
def GoesOn (g : CallFrame) (s t : Session) : Prop :=
  ∃ stack returns j, t = { s with stack, returns, frame := some { g with next := j } } ∧
    ReturnStack.callers returns.items = ReturnStack.callers s.returns.items

theorem GoesOn.outline (hf : s.frame = some g) (h : GoesOn g s t) : t.outline = s.outline := by
  obtain ⟨stack, returns, j, rfl, hc⟩ := h
  simp [Session.outline, hc, hf, definition?]

theorem goesOn_jump {target : Target} (hf : s.frame = some g) (h : jump target s = .ok () t) :
    GoesOn g s t := by
  obtain ⟨j, -, rfl⟩ := exists_of_jump hf h
  exact ⟨s.stack, s.returns, j, rfl, rfl⟩

theorem goesOn_same (hf : s.frame = some g) (stack : DataStack) {returns : ReturnStack}
    (hc : ReturnStack.callers returns.items = ReturnStack.callers s.returns.items) :
    GoesOn g s { s with stack, returns } :=
  ⟨stack, returns, g.next, by rw [← hf], hc⟩

theorem GoesOn.of_operands {stack : DataStack} (h : GoesOn g { s with stack } t) :
    GoesOn g s t := by
  obtain ⟨stack', returns, j, rfl, hc⟩ := h
  exact ⟨stack', returns, j, rfl, hc⟩

theorem goesOn_pushLoop {x : LoopFrame} (hf : s.frame = some g)
    (h : pushReturn (.loop x) s = .ok () t) : GoesOn g s t := by
  unfold pushReturn at h
  cases hr : s.returns.push? (.loop x) with
  | none =>
    rw [hr] at h
    cases h
  | some returns =>
    rw [hr] at h
    cases h
    exact goesOn_same hf s.stack (by rw [ReturnStack.items_of_push? hr]; rfl)

theorem goesOn_advanceLoop {step : Int64} {target : Target} (hf : s.frame = some g)
    (h : advanceLoop step target s = .ok () t) : GoesOn g s t := by
  unfold advanceLoop at h
  rw [StackLang.get_bind] at h
  cases hx : s.returns.loop? 0 with
  | none =>
    rw [hx] at h
    cases h
  | some x =>
    rw [hx] at h
    dsimp only at h
    split at h
    · have hb := (ReturnStack.sameBelow_replaceLoop hx
        { x with index := stepIndex x.index step }).1.callers
      obtain ⟨j, -, rfl⟩ := exists_of_jump (s := { s with
        returns := s.returns.replaceLoop { x with index := stepIndex x.index step } }) hf h
      exact ⟨s.stack, _, j, rfl, hb⟩
    · obtain ⟨returns, hr⟩ := ReturnStack.exists_popLoop?_of_loop? hx
      have hb := (ReturnStack.sameBelow_of_popLoop? hr).1.callers
      have ht : EStateM.Result.ok () { s with
          returns := (s.returns.popLoop?.map (·.2)).getD s.returns } = .ok () t := h
      rw [hr] at ht
      cases ht
      exact goesOn_same hf s.stack hb

theorem goesOn_runLoop {kind : LoopKind} {target : Target} (hf : s.frame = some g)
    (h : runLoop kind target s = .ok () t) : GoesOn g s t := by
  cases kind with
  | start direction =>
    obtain ⟨x, u, hu, h⟩ := exists_of_bind h
    obtain ⟨stack, rfl⟩ := exists_of_operands hu
    exact (goesOn_pushLoop (s := { s with stack }) hf h).of_operands
  | startUnlessEqual direction =>
    obtain ⟨x, u, hu, h⟩ := exists_of_bind h
    obtain ⟨stack, rfl⟩ := exists_of_operands hu
    split at h
    · exact (goesOn_jump (s := { s with stack }) hf h).of_operands
    · exact (goesOn_pushLoop (s := { s with stack }) hf h).of_operands
  | next => exact goesOn_advanceLoop hf h
  | nextBy =>
    obtain ⟨step, u, hu, h⟩ := exists_of_bind h
    obtain ⟨stack, rfl⟩ := exists_of_operands hu
    exact (goesOn_advanceLoop (s := { s with stack }) hf h).of_operands
  | leave =>
    obtain ⟨_, u, hu, h⟩ := exists_of_bind h
    obtain ⟨returns, rfl, hb, -⟩ := exists_of_closeLoop hu
    obtain ⟨j, -, rfl⟩ := exists_of_jump (s := { s with returns }) hf h
    exact ⟨s.stack, returns, j, rfl, hb.callers⟩
  | unloop =>
    obtain ⟨returns, rfl, hb, -⟩ := exists_of_closeLoop h
    exact goesOn_same hf s.stack hb.callers

/-- Leaving a word goes back to its caller. -/
theorem passage_of_leaveWord (hf : s.frame = some g) (h : leaveWord f s = .ok () t) :
    Passage name? s.outline t.outline := by
  rw [leaveWord_eq] at h
  cases he : s.returns.exitCall with
  | mk caller returns =>
    rw [he] at h
    cases caller with
    | none => cases h
    | some caller =>
      obtain ⟨observers, hw⟩ := exists_finishWord f.name { s with
        frame := caller
        returns
        calls := s.calls.tail }
      dsimp only at h
      rw [hw] at h
      cases h
      have hc : ReturnStack.callers s.returns.items =
          caller.toList ++ ReturnStack.callers returns.items := by
        rw [← ReturnStack.callers_fromMarker, (ReturnStack.fromMarker_exitCall he).1,
          ReturnStack.callers_call]
      have hr : s.outline.running = (g.word, g.code) ::
          (caller.toList ++ ReturnStack.callers returns.items).map fun f => (f.word, f.code) := by
        simp [outline, hf, hc]
      exact Passage.leaves hr

/-- What an operation of the running word does, by what it is. -/
theorem turn_of_runOp {op : Op} (hf : s.frame = some { f with next := f.next + 1 })
    (h : runOp f op s = .ok () t) :
    Turn ((op.callee? f.word).bind s.builtinAt?) name? s.outline t.outline := by
  have on (hn : op.callee? f.word = none) (h : GoesOn { f with next := f.next + 1 } s t) :
      Turn ((op.callee? f.word).bind s.builtinAt?) name? s.outline t.outline := by
    rw [hn, h.outline hf]
    exact .stays
  cases op with
  | callBuiltin index | callWord index => exact turn_of_call h
  | recurse => exact turn_of_call h
  | push v =>
    obtain ⟨stack, rfl⟩ := exists_of_operands (show operands (.push v) s = .ok () t from h)
    exact on rfl (goesOn_same hf stack rfl)
  | branch target => exact on rfl (goesOn_jump hf h)
  | branchIfFalse target =>
    obtain ⟨flag, u, hu, h⟩ := exists_of_bind h
    obtain ⟨stack, rfl⟩ := exists_of_operands hu
    split at h
    · exact on rfl (goesOn_jump (s := { s with stack }) hf h).of_operands
    · cases h
      exact on rfl (goesOn_same hf stack rfl)
  | loop kind target => exact on rfl (goesOn_runLoop hf h)
  | loopIndex depth =>
    unfold runOp at h
    dsimp only at h
    rw [StackLang.get_bind] at h
    cases hx : s.returns.loop? depth with
    | none =>
      rw [hx] at h
      cases h
    | some x =>
      rw [hx] at h
      unfold push at h
      obtain ⟨stack, rfl⟩ := exists_of_operands h
      exact on rfl (goesOn_same hf stack rfl)
  | exit => exact passage_of_leaveWord hf h

theorem turn_of_runInstruction (hf : s.frame = some f) (h : runInstruction f s = .ok () t) :
    Turn s.nextBuiltin? name? s.outline t.outline := by
  cases hx : f.code[f.next]? with
  | none =>
    unfold runInstruction at h
    rw [hx] at h
    cases h
  | some x =>
    rw [runInstruction_eq hx] at h
    have ho : outline { s with
        frame := some { f with next := f.next + 1 }
        location := x.location.or s.location } = s.outline := by
      simp [outline, hf, definition?]
    have hn : s.nextBuiltin? = (x.op.callee? f.word).bind s.builtinAt? := by
      simp [nextBuiltin?, callee?, hf, hx]
    have hb : Turn _ name? _ t.outline := turn_of_runOp (f := f) rfl h
    rw [hn, ← ho]
    exact hb

/-! ## Tokens -/

/-- At most calls of the word that the name stands for have been compiled into the definition. -/
def Builds (name? : Option String) (o o' : Outline) : Prop :=
  o' = o ∨ ∃ index code code', o.definition = some (index, code) ∧
    (∀ i, Code.Calls code' index i → Code.Calls code index i ∨
      ∃ name e, name? = some name ∧ o.dictionary.find? name = some (i, e)) ∧
    o' = { o with definition := some (index, code') }

theorem Builds.passage {o o' : Outline} (h : Builds name? o o') : Passage name? o o' := by
  rcases h with rfl | ⟨index, code, code', hd, hc, rfl⟩
  · exact .stays
  · exact .compiles hd hc

theorem Builds.trans {o o' o'' : Outline} (h : Builds name? o o') (h' : Builds name? o' o'') :
    Builds name? o o'' := by
  rcases h with rfl | ⟨index, code, code', hd, hc, rfl⟩
  · exact h'
  · rcases h' with rfl | ⟨_, _, code'', hd', hc', rfl⟩
    · exact .inr ⟨index, code, code', hd, hc, rfl⟩
    · cases hd'
      exact .inr ⟨index, code, code'', hd, fun i hi => (hc' i hi).elim (hc i) .inr, rfl⟩

theorem builds_compile {location : Option Location} {op : Op}
    (hop : ∀ word i, op.callee? word = some i →
      ∃ name e, name? = some name ∧ s.dictionary.find? name = some (i, e))
    (h : compile location op s = .ok () t) : Builds name? s.outline t.outline := by
  obtain ⟨_, u, hu, h⟩ := exists_of_bind h
  cases h
  obtain ⟨source, rest, d, d', hs, hd, hp, rfl⟩ := exists_of_edit hu
  cases hp
  have ho : s.outline.definition = some (d.word, d.code) := by
    rw [outline_definition hs, hd]
    rfl
  exact .inr ⟨d.word, d.code, _, ho, fun i hi =>
    (Code.calls_push.1 hi).imp_right (hop d.word i), rfl⟩

theorem builds_literal {location : Location} {v : Value} (h : literal location v s = .ok () t) :
    Builds name? s.outline t.outline := by
  unfold literal at h
  rw [StackLang.get_bind] at h
  split at h
  · exact builds_compile (by nofun) h
  · obtain ⟨stack, rfl⟩ := exists_of_operands (show operands (.push v) s = .ok () t from h)
    exact .inl rfl

theorem Builds.dictionary {o o' : Outline} (h : Builds name? o o') :
    o'.dictionary = o.dictionary := by
  rcases h with rfl | ⟨index, code, code', hd, hc, rfl⟩ <;> rfl

theorem builds_stringLiteral {location : Location} {form : StringForm} {text : String}
    (h : stringLiteral location form text s = .ok () t) :
    Builds (Lexeme.string form text).compiledName? s.outline t.outline := by
  cases form with
  | display =>
    cases h
    exact .inl rfl
  | push =>
    obtain ⟨_, u, hu, h⟩ := exists_of_bind h
    exact (builds_literal hu).trans (builds_literal h)
  | print =>
    unfold stringLiteral at h
    dsimp only at h
    rw [StackLang.get_bind] at h
    split at h
    · rw [StackLang.get_bind] at h
      cases hf : s.dictionary.find? "TYPE" with
      | none =>
        rw [hf] at h
        cases h
      | some found =>
        rw [hf] at h
        obtain ⟨_, u, hu, h⟩ := exists_of_bind h
        obtain ⟨_, v, hv, h⟩ := exists_of_bind h
        have hb : Builds (some "TYPE") s.outline v.outline :=
          (builds_compile (by nofun) hu).trans (builds_compile (by nofun) hv)
        refine hb.trans (builds_compile (fun word i hi => ?_) h)
        cases hi
        rw [show v.dictionary = s.dictionary from hb.dictionary]
        exact ⟨"TYPE", found.2, rfl, hf⟩
    · cases h
      exact .inl rfl

theorem turn_of_word {location : Location} {name : String} {token : Token}
    (hl : token.lexeme = .word name) (h : word location name s = .ok () t) :
    Turn ((s.namedCallee? token).bind s.builtinAt?) token.lexeme.compiledName?
      s.outline t.outline := by
  obtain ⟨⟨index, e⟩, u, hu, h⟩ := exists_of_bind h
  unfold lookup at hu
  cases hf : s.dictionary.find? name with
  | none =>
    rw [hf] at hu
    cases hu
  | some found =>
    rw [hf] at hu
    cases hu
    have hn : s.namedCallee? token =
        if s.isCompiling && !e.immediate then none else some index := by
      simp [namedCallee?, hl, hf]
    rw [hn]
    dsimp only at h
    rw [StackLang.get_bind] at h
    split at h
    · cases h
    · split at h
      · rename_i hc
        rw [if_pos hc]
        refine (builds_compile (fun word i hi => ?_) h).passage
        have hi : i = index := by split at hi <;> exact (Option.some.inj hi).symm
        exact ⟨name, e, by rw [hl]; rfl, hi ▸ hf⟩
      · rename_i hc
        rw [if_neg hc]
        exact turn_of_call h

theorem turn_of_runLexeme {token : Token} (h : runLexeme token.location token.lexeme s = .ok () t) :
    Turn ((s.namedCallee? token).bind s.builtinAt?) token.lexeme.compiledName?
      s.outline t.outline := by
  cases hl : token.lexeme with
  | number value =>
    rw [hl] at h
    rw [namedCallee?, hl]
    exact (builds_literal h).passage
  | string form text =>
    rw [hl] at h
    rw [namedCallee?, hl]
    exact (builds_stringLiteral h).passage
  | word name =>
    rw [hl] at h
    exact hl ▸ turn_of_word hl h

theorem outline_recordToken {token : Token} (h : recordToken token s = .ok () t) :
    t.outline = s.outline := by
  unfold recordToken at h
  rw [StackLang.get_bind] at h
  cases hd : s.definition? with
  | none =>
    rw [hd] at h
    cases h
    rfl
  | some d =>
    rw [hd] at h
    obtain ⟨source, rest, hs, hsd⟩ := definition?_eq_some hd
    dsimp only at h
    rw [setDefinition_of_cons hs] at h
    cases h
    simp [outline, definition?, hs, hsd, Definition.record]

theorem turn_of_runToken {token : Token} (h : runToken token s = .ok () t) :
    Turn ((s.namedCallee? token).bind s.builtinAt?) token.lexeme.compiledName?
      s.outline t.outline := by
  unfold runToken at h
  rw [StackLang.get_bind, modify_bind] at h
  obtain ⟨_, u, hu, h⟩ := exists_of_bind h
  have hr := turn_of_runLexeme hu
  split at h
  · rw [outline_recordToken h]
    exact hr
  · cases h
    exact hr

/-! ## Steps -/

theorem turn_of_operation (h : operation s = .ok () t) :
    Turn s.nextBuiltin? s.compiledName? s.outline t.outline := by
  cases hf : s.frame with
  | some f =>
    rw [operation_of_frame hf] at h
    exact turn_of_runInstruction hf h
  | none =>
    unfold operation at h
    rw [StackLang.get_bind, hf] at h
    obtain ⟨found, u, hu, h⟩ := exists_of_bind h
    unfold nextToken? at hu
    unfold nextBuiltin?
    rw [hf]
    cases hs : s.sources with
    | nil =>
      rw [hs] at hu
      cases hu
      cases h
      exact .stays
    | cons source rest =>
      rw [hs] at hu
      dsimp only at hu ⊢
      cases ht : source.nextToken? with
      | none =>
        rw [ht] at hu
        cases hu
        cases h
        exact .stays
      | some found =>
        obtain ⟨token, behind⟩ := found
        rw [ht] at hu
        cases hu
        have hd : (behind :: rest).head?.bind (·.definition) = s.definition? := by
          rw [definition?_of_sources hs, ← Pending.definition_of_nextToken? ht]
          rfl
        have ho := outline_ahead hd s.stack s.cells s.dictionary
        have hn : namedCallee? { s with sources := behind :: rest } token =
            s.namedCallee? token := by
          have hc : isCompiling { s with sources := behind :: rest } = s.isCompiling :=
            congrArg Option.isSome hd
          unfold namedCallee?
          rw [hc]
        have hr := turn_of_runToken h
        rw [hn] at hr
        have hname : s.compiledName? = token.lexeme.compiledName? := by
          simp [compiledName?, hf, hs, ht]
        rw [hname, show s.outline = outline { s with sources := behind :: rest } from ho.symm]
        exact hr

theorem definition_unusedSources {sources rest : List Pending}
    (hq : ∀ p ∈ sources.tail, p.definition = none) (h : unusedSources sources = .ok rest) :
    rest.head?.bind (·.definition) = sources.head?.bind (·.definition) := by
  cases sources with
  | nil =>
    cases h
    rfl
  | cons source others =>
    unfold unusedSources at h
    split at h
    · split at h
      · cases h
      · rename_i hd
        have hr : ∀ p ∈ rest, p.definition = none := by
          rcases unusedSources_eq_ok h with rfl | hm
          · exact hq
          · exact fun p hp => hq p (List.mem_of_mem_tail (hm p hp))
        cases rest with
        | nil => exact hd.symm
        | cons p rest => exact (hr p List.mem_cons_self).trans hd.symm
    · cases h
      rfl

/-- At the end of a source the next one begins, without a definition. -/
theorem outline_dropUsedSources (hs : s.Consistent) (h : dropUsedSources s = .ok () t) :
    t.outline = s.outline := by
  unfold dropUsedSources at h
  rw [StackLang.get_bind] at h
  split at h
  · cases hu : unusedSources s.sources with
    | ok sources =>
      rw [hu] at h
      cases h
      exact outline_ahead (definition_unusedSources hs.queued hu) s.stack s.cells s.dictionary
    | error d =>
      rw [hu] at h
      cases h
  · cases h
    rfl

theorem turn_of_step (hs : s.Valid AbleOrBlank) (h : step s = .ok () t) :
    Turn s.nextBuiltin? s.compiledName? s.outline t.outline := by
  obtain ⟨u, hu, h⟩ := exists_of_step_dropped h
  rw [outline_dropUsedSources (consistent_operation hs hu) h]
  exact turn_of_operation hu

end Session

end StackLang
