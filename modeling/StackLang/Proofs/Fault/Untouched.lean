import StackLang.Proofs.Call.Failures
import StackLang.Proofs.Fault.Underflow
import StackLang.Proofs.Fault.Words
import StackLang.Proofs.Words.Closing

/-!
# What a lack of values leaves on the stack

A step finds a lack of values in the word or in the instruction that it runs, and nothing behind
that has anything to lack.  So what is gone from the stack is what the word had taken before it
counted: nothing, or the position of `PICK` and `ROLL`.

* `Action.Loses`, `Action.Ample`: how many values are gone when a lack of values is found, and that
  none is found.
* `Action.loses_builtin`, `Action.loses_runOp`: the built-in words and the instructions.
* `Session.stack_of_lack`: what a step leaves on the stack that fails for lack of values.
* `Session.untouched_iff`: the words and the steps that leave the stack as it was.
-/

namespace StackLang

/-- The failure is a lack of values. -/
def Fault.Lack (fault : Fault) : Prop :=
  ∃ e word needed available,
    fault = .script e ∧ e.cause = .stackUnderflow word needed available

theorem Fault.not_lack_script {e : ScriptError}
    (h : ∀ word needed available, e.cause ≠ .stackUnderflow word needed available) :
    ¬ (Fault.script e).Lack := by
  rintro ⟨e, word, needed, available, he, hc⟩
  cases he
  exact h word needed available hc

theorem Fault.not_lack_breach (b : Breach) : ¬ (Fault.breach b).Lack := by
  rintro ⟨e, word, needed, available, he, -⟩
  cases he

/-- The word takes a position from the stack and then counts the values above it. -/
def Builtin.TakesPosition (w : Builtin) : Prop :=
  w = .stack .pick ∨ w = .stack .roll

namespace Action

open Session

variable {α β : Type} {k : Nat}

/-! ## Actions -/

/-- No lack of values is found. -/
def Ample (p : Action α) : Prop :=
  Triple (fun _ => True) p (fun _ _ => True) fun fault _ => ¬ fault.Lack

/-- When a lack of values is found, the first `k` are gone. -/
def Loses (k : Nat) (p : Action α) : Prop :=
  ∀ s, Triple (· = s) p (fun _ _ => True) fun fault t => fault.Lack → t.stack = s.stack.drop k

/-- The second session has the stack of the first. -/
def SameStack (s t : Session) : Prop :=
  t.stack = s.stack

theorem SameStack.trans {s t u : Session} (h : SameStack s t) (h' : SameStack t u) :
    SameStack s u :=
  Eq.trans h' h

theorem Ample.of_unfailing {p : Action α} (h : Unfailing p) : Ample p := by
  intro s _
  obtain ⟨a, t, hp⟩ := h s
  rw [hp]
  trivial

theorem Ample.bind {p : Action α} {q : α → Action β} (hp : Ample p) (hq : ∀ a, Ample (q a)) :
    Ample (p >>= q) :=
  Triple.bind hp hq

theorem Loses.of_sheds {p : Action α} (h : Sheds SameStack p) : Loses 0 p := by
  rintro _ s rfl
  have hs := h s
  revert hs
  cases p s with
  | ok a t => exact fun _ => trivial
  | error fault t => exact fun hs _ => hs

theorem Loses.of_unfailing {p : Action α} (h : Unfailing p) : Loses k p := by
  rintro _ s rfl
  obtain ⟨a, t, hp⟩ := h s
  rw [hp]
  trivial

/-- Behind the operands nothing else may be lacking. -/
theorem Loses.bind {p : Action α} {q : α → Action β} (hp : Loses k p) (hq : ∀ a, Ample (q a)) :
    Loses k (p >>= q) :=
  fun s => (hp s).bind fun a => (Triple.mono (hq a) (fun _ _ => trivial) fun _ _ h => h).weaken
    fun _ _ h hl => absurd hl h

/-- What keeps the stack may come before the operands. -/
theorem Loses.behind {p : Action α} {q : α → Action β} (hp : Sheds SameStack p)
    (hq : ∀ a, Loses 0 (q a)) : Loses 0 (p >>= q) := by
  rintro _ s rfl
  have hs := hp s
  rw [bind_apply]
  revert hs
  cases p s with
  | ok a t =>
    intro hs
    have h := hq a t t rfl
    rwa [show t.stack = s.stack from hs] at h
  | error fault t => exact fun hs _ => hs

theorem Loses.view {q : Session → Action β} (h : ∀ s, Loses k (q s)) : Loses k (get >>= q) :=
  fun s => Triple.view fun t => h t s

theorem loses_operands {p : Operand α} (h : Operand.Loses k p) : Loses k (operands p) := by
  rintro _ s rfl
  have hs := h s.stack s.stack rfl
  unfold operands
  revert hs
  cases p s.stack with
  | ok a stack => exact fun _ => trivial
  | error fault stack =>
    rintro hs ⟨e, word, needed, available, he, hc⟩
    cases he
    exact hs (OperandFault.lack_of_cause hc)

theorem ample_operands {p : Operand α} (h : Operand.Enough 0 p 0) : Ample (operands p) := by
  intro s _
  have hs := h s.stack (Nat.zero_le _)
  unfold operands
  revert hs
  cases p s.stack with
  | ok a stack => exact fun _ => trivial
  | error fault stack =>
    rintro hs ⟨e, word, needed, available, he, hc⟩
    cases he
    exact hs (OperandFault.lack_of_cause hc)

theorem ample_raise {cause : Cause}
    (h : ∀ word needed available, cause ≠ .stackUnderflow word needed available) :
    Ample (raise cause : Action α) :=
  fun _ _ => Fault.not_lack_script h

theorem ample_push (v : Value) : Ample (push v) :=
  .of_unfailing (unfailing_push v)

theorem ample_pushReturn (item : ReturnItem) : Ample (pushReturn item) := by
  intro s _
  unfold pushReturn
  cases s.returns.push? item with
  | some returns => trivial
  | none => exact Fault.not_lack_script nofun

theorem ample_fetchCell (address : UInt64) : Ample (MemoryWord.fetchCell address) := by
  intro s _
  unfold MemoryWord.fetchCell
  cases s.cells.fetch? address.toNat with
  | some v => trivial
  | none => exact Fault.not_lack_script nofun

theorem ample_storeCell (address : UInt64) (v : Value) :
    Ample (MemoryWord.storeCell address v) := by
  intro s _
  unfold MemoryWord.storeCell
  by_cases h : s.cells.holds address.toNat
  · rw [if_pos h]
    trivial
  · rw [if_neg h]
    exact Fault.not_lack_script nofun

theorem ample_allot (count : Nat) : Ample (allot count) := by
  intro s _
  unfold allot
  cases s.cells.allot? count with
  | some found => trivial
  | none => exact Fault.not_lack_script nofun

/-! ## What keeps the stack -/

theorem sheds_then {p : Action α} {q : α → Action β} (hp : Sheds SameStack p)
    (hq : ∀ a, Sheds SameStack (q a)) : Sheds SameStack (p >>= q) :=
  Sheds.bind (U := SameStack) SameStack.trans hp hq

theorem same_modify {f : Session → Session} (h : ∀ s, (f s).stack = s.stack) :
    Sheds SameStack (modify f : Action Unit) :=
  fun s => h s

theorem same_raise (cause : Cause) : Sheds SameStack (raise cause : Action α) :=
  fun _ => rfl

theorem same_nextName : Sheds SameStack nextName :=
  sheds_nextName_ahead.mono fun ⟨_, ht, _⟩ => by rw [ht]; rfl

theorem same_lookup (name : String) : Sheds SameStack (lookup name) := by
  intro s
  unfold lookup
  cases s.dictionary.find? name <;> rfl

theorem same_allot (count : Nat) : Sheds SameStack (allot count) := by
  intro s
  unfold allot
  cases s.cells.allot? count <;> rfl

theorem same_define (e : Entry) : Sheds SameStack (define e) :=
  fun _ => rfl

theorem same_setDefinition (d : Option Definition) : Sheds SameStack (setDefinition d) := by
  refine same_modify fun s => ?_
  cases s.sources <;> rfl

theorem same_currentDefinition : Sheds SameStack currentDefinition := by
  intro s
  unfold currentDefinition
  cases s.definition? <;> rfl

theorem same_currentSource : Sheds SameStack currentSource := by
  intro s
  unfold currentSource
  cases s.sources <;> rfl

theorem same_edit (p : Definition.Edit α) : Sheds SameStack (edit p) := by
  refine sheds_then same_currentDefinition fun d => ?_
  cases p d with
  | ok a d' =>
    exact sheds_then (same_setDefinition _) fun _ => Sheds.pure (U := SameStack) (fun _ => rfl) a
  | error cause d' => exact sheds_then (same_setDefinition _) fun _ => same_raise cause

/-! ## Built-in words -/

/-- There is a value that a constant is made of, and looking for its name leaves it there. -/
theorem loses_constant : Loses 0 (DefiningWord.run .constant) := by
  intro s
  have hcount : Triple (· = s) (operands (.require 1))
      (fun _ t => t.stack = s.stack ∧ 1 ≤ t.stack.length)
      fun fault t => fault.Lack → t.stack = s.stack := by
    intro t ht
    subst ht
    unfold operands
    by_cases h : 1 ≤ t.stack.length
    · rw [Operand.require_of_le h]
      exact ⟨rfl, h⟩
    · rw [Operand.require_of_lt (Nat.lt_of_not_le h)]
      exact fun _ => rfl
  refine hcount.bind fun _ => ?_
  refine Triple.bind (Q := fun _ t => t.stack = s.stack ∧ 1 ≤ t.stack.length) ?_
    fun (location, name) => ?_
  · rintro t ⟨ht, hn⟩
    have hname := same_nextName t
    revert hname
    cases nextName t with
    | ok x u => exact fun (hu : u.stack = t.stack) => ⟨hu.trans ht, hu ▸ hn⟩
    | error fault u => exact fun (hu : u.stack = t.stack) _ => hu.trans ht
  · rintro t ⟨-, hn⟩
    dsimp only
    rw [bind_apply]
    unfold operands
    cases hs : t.stack with
    | nil =>
      rw [hs] at hn
      exact absurd hn (Nat.not_succ_le_zero 0)
    | cons v stack => trivial

theorem loses_defining (w : DefiningWord) : Loses 0 w.run := by
  cases w with
  | colon =>
    refine .of_sheds (Sheds.view fun s => ?_)
    have hopen : Sheds SameStack (do
        discard currentSource
        let x ← nextName
        let entry := { Entry.ofBody (some x.1) x.2 (.compiled #[]) with visible := false }
        let index ← define entry
        discard currentSource
        setDefinition (some (.opened index entry.name x.1))) := by
      have hsource : Sheds SameStack (discard currentSource : Action Unit) :=
        sheds_then same_currentSource fun _ => Sheds.pure (U := SameStack) (fun _ => rfl) ()
      refine sheds_then hsource fun _ => sheds_then same_nextName fun x => ?_
      refine sheds_then (same_define _) fun index => ?_
      exact sheds_then hsource fun _ => same_setDefinition _
    split
    · exact sheds_then (same_raise _) fun _ => hopen
    · exact hopen
  | semicolon =>
    refine .of_sheds (sheds_then (same_edit _) fun r => ?_)
    cases r with
    | error b => exact fun _ => rfl
    | ok code =>
      refine sheds_then same_currentDefinition fun d => ?_
      exact sheds_then (same_setDefinition none) fun _ => same_modify fun _ => rfl
  | constant => exact loses_constant
  | «variable» =>
    refine .of_sheds (sheds_then same_nextName fun x => sheds_then (same_allot 1) fun address => ?_)
    exact sheds_then (same_define _) fun _ => Sheds.pure (U := SameStack) (fun _ => rfl) ()
  | immediate =>
    refine .of_sheds (Sheds.view fun s => ?_)
    split
    · exact same_modify fun _ => rfl
    · exact same_raise _
  | forget =>
    refine .of_sheds (sheds_then same_nextName fun x => sheds_then (same_lookup _) fun y => ?_)
    dsimp only
    split
    · exact Sheds.view fun s => sheds_then (same_raise _) fun _ => same_modify fun _ => rfl
    · exact same_modify fun _ => rfl
  | reset => exact .of_unfailing (Unfailing.modify _)

theorem loses_memory (w : MemoryWord) : Loses 0 w.run := by
  cases w with
  | fetch =>
    refine (loses_operands Operand.loses_popAddress).bind fun address => ?_
    exact (ample_fetchCell address).bind fun v => ample_push v
  | store =>
    refine (loses_operands (Operand.loses_require_bind (m := 0) ?_)).bind fun x =>
      ample_storeCell x.1 x.2
    exact Operand.enough_popAddress.bind fun _ => Operand.enough_pop.bind fun _ =>
      Operand.enough_pure _
  | addTo =>
    refine (loses_operands (Operand.loses_require_bind (m := 0) ?_)).bind fun x =>
      (ample_fetchCell x.1).bind fun v => ?_
    · exact Operand.enough_popAddress.bind fun _ => Operand.enough_popNumber.bind fun _ =>
        Operand.enough_pure _
    · exact (ample_operands (Operand.enough_expect _ _ _)).bind fun n => ample_storeCell _ _
  | cells => exact (loses_operands Operand.loses_popInt).bind fun n => ample_push _
  | allot =>
    refine (loses_operands (Operand.loses_popInt.bind fun n => ?_)).bind fun n =>
      (ample_allot n).bind fun _ => .of_unfailing (Unfailing.pure ())
    dsimp only
    split
    · exact (Operand.enough_throw (m := 0) id).bind fun _ => Operand.enough_pure _
    · exact Operand.enough_pure _
  | here => exact .of_unfailing fun s => ⟨(), _, rfl⟩

theorem loses_returns (w : ReturnWord) : Loses 0 w.run := by
  have missing : Loses 0 (ReturnWord.noValue : Action Unit) := by
    refine .of_sheds fun s => ?_
    rfl
  cases w with
  | toReturn => exact (loses_operands Operand.loses_pop).bind fun v => ample_pushReturn _
  | fromReturn =>
    refine .view fun s => ?_
    split
    · exact .of_unfailing ((Unfailing.modify _).bind fun _ => unfailing_push _)
    · exact missing
  | copyReturn =>
    refine .view fun s => ?_
    split
    · exact .of_unfailing (unfailing_push _)
    · exact missing

theorem loses_output (w : OutputWord) : Loses 0 w.run := by
  have ample_print (text : String) : Ample (print text) := .of_unfailing (unfailing_print text)
  cases w with
  | print => exact (loses_operands Operand.loses_pop).bind fun v => ample_print _
  | printStack | words => exact .view fun s => .of_unfailing (unfailing_print _)
  | newLine | space => exact .of_unfailing (unfailing_print _)
  | spaces => exact (loses_operands Operand.loses_popInt).bind fun n => ample_print _
  | emit =>
    refine (loses_operands Operand.loses_pop).bind fun v => ?_
    split
    · exact ample_print _
    · exact ample_operands (Operand.enough_throw id)
  | type =>
    refine (loses_operands (Operand.loses_require_bind (m := 0) ?_)).bind fun x => ample_print _
    exact Operand.enough_popInt.bind fun _ => Operand.enough_popString.bind fun _ =>
      Operand.enough_pure _
  | see =>
    refine .of_sheds (sheds_then same_nextName fun x => sheds_then (same_lookup _) fun y => ?_)
    exact Sheds.view fun s => same_modify fun _ => rfl

/-- A built-in word finds a lack of values before it has taken any, but for a position. -/
theorem loses_builtin (w : Builtin) : Loses w.uncounted w.run := by
  cases w with
  | stack w => exact loses_operands (Operand.loses_stackWord w)
  | returns w => exact loses_returns w
  | math w => exact loses_operands (Operand.loses_mathWord w)
  | memory w => exact loses_memory w
  | defining w => exact loses_defining w
  | control w => exact .of_sheds (Sheds.view fun s => same_edit _)
  | output w => exact loses_output w

/-! ## Instructions -/

theorem Ample.loses {p : Action α} (h : Ample p) : Loses k p :=
  fun _ => (Triple.mono h (fun _ _ => trivial) fun _ _ h => h).weaken
    fun _ _ h hl => absurd hl h

theorem ample_breach (b : Breach) : Ample (breach b : Action α) :=
  fun _ _ => Fault.not_lack_breach b

theorem ample_modify (f : Session → Session) : Ample (modify f) :=
  .of_unfailing (Unfailing.modify f)

theorem ample_finishWord (name : String) : Ample (finishWord name) :=
  .of_unfailing fun s =>
    have ⟨_, h⟩ := exists_finishWord name s
    ⟨(), _, h⟩

theorem ample_jump (target : Target) : Ample (jump target) := by
  intro s _
  unfold jump
  cases s.frame with
  | none => trivial
  | some f =>
    cases target with
    | none => exact Fault.not_lack_breach _
    | some index =>
      dsimp only
      by_cases h : index < f.code.size
      · rw [if_pos h]
        trivial
      · rw [if_neg h]
        exact Fault.not_lack_breach _

theorem ample_noLoop (word : String) : Ample (noLoop word : Action α) :=
  ample_raise fun _ _ _ => by simp

theorem ample_advanceLoop (step : Int64) (target : Target) : Ample (advanceLoop step target) := by
  refine Triple.view fun s => ?_
  split
  · exact ample_noLoop _
  · dsimp only
    split
    · exact (ample_modify _).bind fun _ => ample_jump target
    · exact ample_modify _

theorem ample_closeLoop (word : String) : Ample (closeLoop word) := by
  refine Triple.view fun s => ?_
  split
  · exact ample_modify _
  · exact ample_noLoop _

theorem loses_popBounds (direction : LoopDirection) : Loses 0 (popBounds direction) :=
  loses_operands <| Operand.loses_require_bind (m := 0) <| Operand.enough_popInt.bind fun _ =>
    Operand.enough_popInt.bind fun _ => Operand.enough_pure _

theorem loses_runLoop (kind : LoopKind) (target : Target) : Loses 0 (runLoop kind target) := by
  cases kind with
  | start direction => exact (loses_popBounds direction).bind fun x => ample_pushReturn _
  | startUnlessEqual direction =>
    refine (loses_popBounds direction).bind fun x => ?_
    split
    · exact ample_jump target
    · exact ample_pushReturn _
  | next => exact (ample_advanceLoop 1 target).loses
  | nextBy =>
    exact (loses_operands Operand.loses_popInt).bind fun step => ample_advanceLoop step target
  | leave => exact ((ample_closeLoop _).bind fun _ => ample_jump target).loses
  | unloop => exact (ample_closeLoop _).loses

theorem ample_leaveWord (f : CallFrame) : Ample (leaveWord f) := by
  refine Triple.view fun s => ?_
  split
  · exact ample_breach _
  · exact (ample_modify _).bind fun _ => ample_finishWord _

/-- An instruction that calls no word finds a lack of values before it has taken any. -/
theorem loses_runOp {f : CallFrame} {op : Op} (hop : op.callee? f.word = none) :
    Loses 0 (runOp f op) := by
  cases op with
  | callBuiltin index | callWord index | recurse => cases hop
  | push v => exact (ample_push v).loses
  | branch target => exact (ample_jump target).loses
  | branchIfFalse target =>
    refine (loses_operands Operand.loses_popFlag).bind fun flag => ?_
    split
    · exact ample_jump target
    · exact .of_unfailing (Unfailing.pure ())
  | loop kind target => exact loses_runLoop kind target
  | loopIndex depth =>
    refine .view fun s => ?_
    split
    · exact (ample_push _).loses
    · exact (ample_noLoop _).loses
  | exit => exact (ample_leaveWord f).loses

/-! ## Tokens that are no words -/

theorem ample_compile (location : Option Location) (op : Op) : Ample (compile location op) := by
  intro s _
  cases hd : s.definition? with
  | none =>
    rw [compile, discard_apply, edit_of_none hd]
    exact Fault.not_lack_script nofun
  | some d =>
    obtain ⟨t, ht, -⟩ := compile_of_definition hd location op
    rw [ht]
    trivial

theorem ample_literal (location : Location) (v : Value) : Ample (literal location v) := by
  refine Triple.view fun s => ?_
  split
  · exact ample_compile _ _
  · exact ample_push v

theorem ample_print (text : String) : Ample (print text) :=
  .of_unfailing (unfailing_print text)

theorem ample_stringLiteral (location : Location) (form : StringForm) (text : String) :
    Ample (stringLiteral location form text) := by
  cases form with
  | display => exact ample_print text
  | push => exact (ample_literal location _).bind fun _ => ample_literal location _
  | print =>
    refine Triple.view fun s => ?_
    split
    · refine Triple.view fun t => ?_
      split
      · exact ample_raise fun _ _ _ => by simp
      · refine (ample_compile _ _).bind fun _ => ?_
        exact (ample_compile _ _).bind fun _ => ample_compile _ _
    · exact ample_print text

theorem ample_recordToken (token : Token) : Ample (recordToken token) := by
  refine Triple.view fun s => ?_
  split
  · exact ample_modify _
  · exact Ample.of_unfailing (Unfailing.pure ())

theorem ample_dropUsedSources : Ample dropUsedSources := by
  refine Triple.view fun s => ?_
  split
  · split
    · exact fun _ _ => trivial
    · rename_i d _
      refine Triple.bind (Q := fun _ _ => True) (fun _ _ => trivial) fun _ => ample_raise ?_
      unfold Definition.unclosed
      intro word needed available
      split
      · exact nofun
      · simp
  · exact Ample.of_unfailing (Unfailing.pure ())

end Action

namespace Session

open StackLang.Action

variable {s t : Session} {fault : Fault}

/-! ## Steps -/

/-- How many values are taken before those that are needed are counted, by the word that runs. -/
def uncounted (x? : Option (Builtin × Option String)) : Nat :=
  (x?.map (·.1.uncounted)).getD 0

theorem stack_of_callBuiltin {name : String} {w : Builtin}
    (h : callBuiltin name w s = .error fault t) (hl : fault.Lack) :
    t.stack = s.stack.drop w.uncounted := by
  have hrun : Loses w.uncounted (do
      w.run
      modify fun s => { s with calls := s.calls.tail, builtin := none }
      finishWord name) :=
    (loses_builtin w).bind fun _ => (ample_modify _).bind fun _ => ample_finishWord name
  have hlost := hrun _ { s with
    calls := ⟨name, s.location.getD .unspecified⟩ :: s.calls
    builtin := some name } rfl
  unfold callBuiltin at h
  rw [modify_bind] at h
  rw [h] at hlost
  exact hlost hl

theorem stack_of_call {index : Nat} (h : call index s = .error fault t) (hl : fault.Lack) :
    t.stack = s.stack.drop (uncounted (s.builtinAt? index)) := by
  unfold call at h
  rw [StackLang.get_bind] at h
  unfold builtinAt?
  cases he : s.dictionary.get? index with
  | none =>
    rw [he] at h
    cases h
    rfl
  | some e =>
    rw [he] at h
    rcases error_of_bind h with h | ⟨_, u, hu, h⟩
    · cases h
    · cases hu
      rw [Option.bind_some]
      cases hb : e.body with
      | builtin w =>
        rw [hb] at h
        exact stack_of_callBuiltin (s := { s with
          observers := s.observers.record (.starting e.name e.signature) }) h hl
      | compiled code =>
        rw [hb] at h
        dsimp only at h
        rw [callCompiled_eq] at h
        split at h
        · cases h
        · cases h
          rfl

theorem stack_of_word {location : Location} {name : String} {token : Token}
    (hn : token.lexeme = .word name) (h : word location name s = .error fault t)
    (hl : fault.Lack) :
    t.stack = s.stack.drop (uncounted ((s.namedCallee? token).bind s.builtinAt?)) := by
  unfold namedCallee?
  rw [hn]
  dsimp only
  cases hfind : s.dictionary.find? name with
  | none =>
    unfold word at h
    rw [bind_apply] at h
    unfold lookup at h
    rw [hfind] at h
    cases h
    rfl
  | some found =>
    obtain ⟨index, e⟩ := found
    rw [word_of_find? hfind] at h
    rw [Option.bind_some]
    dsimp only
    split at h
    · cases h
      exact absurd hl (Fault.not_lack_script nofun)
    · split at h
      · have hample := ample_compile (some location)
          (if e.isBuiltin then .callBuiltin index else .callWord index) s trivial
        rw [h] at hample
        exact absurd hl hample
      · rename_i hc
        rw [if_neg hc]
        exact stack_of_call h hl

theorem stack_of_runLexeme {location : Location} {token : Token}
    (h : runLexeme location token.lexeme s = .error fault t) (hl : fault.Lack) :
    t.stack = s.stack.drop (uncounted ((s.namedCallee? token).bind s.builtinAt?)) := by
  have none_lacks {p : Action Unit} (hp : Ample p) (h : p s = .error fault t) : False := by
    have hs := hp s trivial
    rw [h] at hs
    exact hs hl
  cases hx : token.lexeme with
  | number value =>
    rw [hx] at h
    exact (none_lacks (ample_literal _ _) h).elim
  | string form text =>
    rw [hx] at h
    exact (none_lacks (ample_stringLiteral _ _ _) h).elim
  | word name =>
    rw [hx] at h
    exact stack_of_word hx h hl

theorem stack_of_runToken {token : Token} (h : runToken token s = .error fault t)
    (hl : fault.Lack) :
    t.stack = s.stack.drop (uncounted ((s.namedCallee? token).bind s.builtinAt?)) := by
  unfold runToken at h
  rw [StackLang.get_bind, modify_bind] at h
  rcases error_of_bind h with h | ⟨_, u, hu, h⟩
  · exact stack_of_runLexeme (s := { s with location := some token.location }) h hl
  · have hrecord : Ample (if s.isCompiling then recordToken token else pure ()) := by
      split
      · exact ample_recordToken token
      · exact Ample.of_unfailing (Unfailing.pure ())
    have hs := hrecord u trivial
    rw [h] at hs
    exact absurd hl hs

theorem stack_of_operation (h : operation s = .error fault t) (hl : fault.Lack) :
    t.stack = s.stack.drop (uncounted s.nextBuiltin?) := by
  unfold nextBuiltin?
  cases hf : s.frame with
  | some f =>
    rw [operation_of_frame hf] at h
    dsimp only
    cases hx : f.code[f.next]? with
    | none =>
      unfold runInstruction at h
      rw [hx] at h
      cases h
      exact absurd hl (Fault.not_lack_breach _)
    | some x =>
      rw [runInstruction_eq hx] at h
      have hc : s.callee? = x.op.callee? f.word := by simp [callee?, hf, hx]
      rw [hc]
      cases hop : x.op.callee? f.word with
      | none =>
        have hlost := loses_runOp hop _ { s with
          frame := some { f with next := f.next + 1 }
          location := x.location.or s.location } rfl
        rw [h] at hlost
        exact hlost hl
      | some index =>
        rw [runOp_of_callee? hop] at h
        exact stack_of_call (s := { s with
          frame := some { f with next := f.next + 1 }
          location := x.location.or s.location }) h hl
  | none =>
    unfold operation at h
    rw [StackLang.get_bind, hf] at h
    dsimp only at h ⊢
    rw [bind_apply] at h
    unfold nextToken? at h
    cases hs : s.sources with
    | nil =>
      rw [hs] at h
      cases h
    | cons source rest =>
      rw [hs] at h
      dsimp only at h ⊢
      cases ht : source.nextToken? with
      | none =>
        rw [ht] at h
        cases h
      | some found =>
        obtain ⟨token, behind⟩ := found
        rw [ht] at h
        have hd : (behind :: rest).head?.bind (·.definition) = s.definition? := by
          rw [definition?_of_sources hs, ← Pending.definition_of_nextToken? ht]
          rfl
        have hn : namedCallee? { s with sources := behind :: rest } token =
            s.namedCallee? token := by
          have hc : isCompiling { s with sources := behind :: rest } = s.isCompiling :=
            congrArg Option.isSome hd
          unfold namedCallee?
          rw [hc]
        have hr := stack_of_runToken h hl
        rw [hn] at hr
        exact hr

/-- What a step leaves on the stack that fails for lack of values. -/
theorem stack_of_lack (h : step s = .error fault t) (hl : fault.Lack) :
    t.stack = s.stack.drop (uncounted s.nextBuiltin?) := by
  cases hc : s.cancelled with
  | true =>
    rw [step_of_cancelled hc] at h
    cases h
    exact absurd hl (Fault.not_lack_script nofun)
  | false =>
    rw [step_of_running hc] at h
    rcases error_of_bind h with h | ⟨_, u, hu, h⟩
    · exact stack_of_operation h hl
    · have hs := ample_dropUsedSources u trivial
      rw [h] at hs
      exact absurd hl hs

/-- Only the empty stack has nothing to lose. -/
theorem drop_uncounted_iff (w : Builtin) (stack : DataStack) :
    stack.drop w.uncounted = stack ↔ stack = [] ∨ ¬ w.TakesPosition := by
  by_cases hw : w.TakesPosition
  · have hone : w.uncounted = 1 := by
      rcases hw with rfl | rfl <;> rfl
    rw [hone]
    cases stack with
    | nil => simp
    | cons v stack => simp [hw]
  · have hzero : w.uncounted = 0 := by
      unfold Builtin.uncounted
      split
      · exact absurd (.inl rfl) hw
      · exact absurd (.inr rfl) hw
      · rfl
    simp [hzero, hw]

/-- A built-in word that fails for lack of values leaves the stack as it was, and so does a step,
whether it runs a word or an instruction; unless it is `PICK` or `ROLL` that fails, which has taken
the position then. -/
theorem untouched_iff (hl : fault.Lack) :
    (∀ w : Builtin, w.run s = .error fault t →
      (t.stack = s.stack ↔ s.stack = [] ∨ ¬ w.TakesPosition)) ∧
    (checked step s = .error fault t →
      (t.stack = s.stack ↔
        s.stack = [] ∨ ∀ w next?, s.nextBuiltin? = some (w, next?) → ¬ w.TakesPosition)) := by
  refine ⟨fun w h => ?_, fun h => ?_⟩
  · have hlost := loses_builtin w s s rfl
    rw [h] at hlost
    rw [hlost hl, drop_uncounted_iff]
  · have hstack : t.stack = s.stack.drop (uncounted s.nextBuiltin?) := by
      unfold checked at h
      cases hs : step s with
      | ok a u =>
        rw [hs] at h
        cases h
      | error e u =>
        rw [hs] at h
        cases e with
        | script e =>
          cases h
          have hstack := stack_of_lack hs hl
          exact hstack
        | breach b | outOfFuel =>
          cases h
          exact stack_of_lack hs hl
    rw [hstack]
    cases hn : s.nextBuiltin? with
    | none => simp [uncounted]
    | some x =>
      obtain ⟨w, next?⟩ := x
      rw [show uncounted (some (w, next?)) = w.uncounted from rfl, drop_uncounted_iff]
      refine or_congr_right ⟨fun hw w' next?' hw' => ?_, fun h => h w next? rfl⟩
      cases hw'
      exact hw

/-- `ROT` leaves two values as they are, and so does the start of a counted loop with one; `PICK`
leaves one of two. -/
theorem untouched_iff_of_rot :
    let s (stack : DataStack) : Session := { ofConfig .standard with stack }
    let loop (next : Nat) : CallFrame := ⟨96, "W", #[⟨none, .loop (.start .unknown) none⟩], next⟩
    (∃ fault t, fault.Lack ∧ (Builtin.stack .rot).run (s [.int 2, .int 1]) = .error fault t ∧
      t.stack = [.int 2, .int 1]) ∧
    (∃ fault t, fault.Lack ∧
      checked step { s [.int 1] with frame := some (loop 0) } = .error fault t ∧
      t.stack = [.int 1]) ∧
    ∃ fault t, fault.Lack ∧ (Builtin.stack .pick).run (s [.int 5, .int 1]) = .error fault t ∧
      t.stack ≠ [.int 5, .int 1] := by
  intro s loop
  have lack (u : Session) (needed available : Nat) :
      (Fault.script (u.error (.stackUnderflow u.currentWord needed available))).Lack :=
    ⟨_, _, needed, available, rfl, rfl⟩
  have hrot := lack (s [.int 2, .int 1]) 3 2
  have hloop := lack { s [.int 1] with frame := some (loop 1) } 2 1
  have hpick := lack (s [.int 5, .int 1]) 6 1
  refine ⟨⟨_, _, hrot, rfl, ?_⟩, ⟨_, _, hloop, rfl, ?_⟩, ⟨_, _, hpick, rfl, fun h => ?_⟩⟩
  · exact ((untouched_iff (s := s [.int 2, .int 1]) hrot).1 (.stack .rot) rfl).2
      (.inr (by rintro (h | h) <;> cases h))
  · exact ((untouched_iff (s := { s [.int 1] with frame := some (loop 0) }) hloop).2 rfl).2
      (.inr fun _ _ h => nomatch h)
  · rcases ((untouched_iff (s := s [.int 5, .int 1]) hpick).1 (.stack .pick) rfl).1 h with h | h
    · cases h
    · exact h (.inl rfl)

/-- What the stack holds before and behind a step that finds too few values. -/
def lacking? (s : Session) : Option (DataStack × DataStack) :=
  match checked step s with
  | .error (.script ⟨_, .stackUnderflow _ _ _, _⟩) t => some (s.stack, t.stack)
  | _ => none

theorem of_lacking? {before behind : DataStack} (h : s.lacking? = some (before, behind)) :
    ∃ fault t, checked step s = .error fault t ∧ fault.Lack ∧ s.stack = before ∧
      t.stack = behind := by
  unfold lacking? at h
  split at h
  · rename_i location word needed available calls t hs
    cases h
    exact ⟨_, t, hs, ⟨_, word, needed, available, rfl, rfl⟩, rfl, rfl⟩
  · cases h

/-- `PICK` needs six values for the position five, and finds one when it has taken the position. -/
theorem lack_of_picked : ¬ ∀ moves s fault t, play moves (ofConfig .standard) = .ok s →
    checked step s = .error fault t → fault.Lack → t.stack = s.stack := by
  intro h
  have hrun : (play (.enqueue inputPath "1 5 PICK" :: List.replicate 2 .step)
      (ofConfig .standard)).toOption.bind lacking? =
      some ([.int 5, .int 1], [.int 1]) := by
    rw [play, show Move.run (.enqueue inputPath "1 5 PICK") (ofConfig .standard) =
      .ok () { ofConfig .standard with
        sources := [] ++ [.ofSource inputPath "1 5 PICK"] } from rfl]
    rw [Pending.ofSource_eq 10 (by decide)]
    decide +kernel
  obtain ⟨s, hs, hrun⟩ := Option.bind_eq_some_iff.1 hrun
  obtain ⟨fault, t, hstep, hlack, hbefore, hbehind⟩ := of_lacking? hrun
  have hsame := h _ s fault t (eq_ok_of_toOption hs) hstep hlack
  rw [hbefore, hbehind] at hsame
  cases hsame

end Session

end StackLang
