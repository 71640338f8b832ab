import StackLang.Proofs.Fault.Words

/-!
# Operations that fail without a trace

What an instruction does to the return stack and to the frame, and what a token does to the
definition that is open, is dropped by an error.  Everything else that they do comes last, where it
cannot fail any more.

* `atomic_runInstruction`, `atomic_runToken`: instructions and tokens leave no other difference.
* `mild_stringLiteral`: inside of a definition, a literal does nothing but build it.
-/

namespace StackLang

namespace Action

open Session

variable {α β : Type}

/-! ## Instructions -/

theorem sheds_modify {f : Session → Session} (h : ∀ s : Session, s.Undone (f s)) :
    Sheds Undone (modify f : Action Unit) :=
  fun s => h s

theorem unfailing_finishWord (name : String) : Unfailing (finishWord name) := by
  intro s
  unfold finishWord
  rw [StackLang.get_bind]
  split <;> exact ⟨_, _, rfl⟩

theorem sheds_finishWord (name : String) : Sheds Undone (finishWord name) := by
  refine Sheds.view fun s => sheds_bind (sheds_notify _) fun _ => ?_
  split
  · exact sheds_notify _
  · exact Sheds.pure Undone.refl ()

theorem atomic_callBuiltin (name : String) (word : Builtin) :
    Atomic Undone (callBuiltin name word) := by
  refine atomic_after (sheds_modify fun s => ⟨List.suffix_refl _, rfl, rfl⟩) fun _ => ?_
  refine (atomic_builtin word).then_unfailing fun _ => ?_
  exact (Unfailing.modify _).bind fun _ => unfailing_finishWord name

theorem sheds_callCompiled (index : Nat) (name : String) (code : Code) :
    Sheds Undone (callCompiled index name code) := by
  refine Sheds.view fun s => ?_
  refine sheds_bind (sheds_modify fun s => ⟨List.suffix_refl _, rfl, rfl⟩) fun _ => ?_
  refine sheds_bind (sheds_pushReturn _) fun _ => ?_
  exact sheds_modify fun s => ⟨List.suffix_refl _, rfl, rfl⟩

theorem atomic_call (index : Nat) : Atomic Undone (call index) := by
  refine Atomic.view fun s => ?_
  split
  · exact (sheds_raise _).atomic
  · refine atomic_after (sheds_notify _) fun _ => ?_
    split
    · exact atomic_callBuiltin _ _
    · exact (sheds_callCompiled _ _ _).atomic

theorem sheds_breach (b : Breach) : Sheds Undone (breach b : Action α) :=
  fun s => Undone.refl s

theorem sheds_leaveWord (frame : CallFrame) : Sheds Undone (leaveWord frame) := by
  refine Sheds.view fun s => ?_
  split
  · exact sheds_breach _
  · refine sheds_bind (sheds_modify fun s => ⟨List.suffix_refl _, rfl, rfl⟩) fun _ => ?_
    exact sheds_finishWord _

theorem sheds_jump (target : Target) : Sheds Undone (jump target) := by
  intro s
  unfold jump
  cases s.frame with
  | none => exact Undone.refl s
  | some frame =>
    cases target with
    | none => exact Undone.refl s
    | some index =>
      dsimp only
      by_cases h : index < frame.code.size
      · rw [if_pos h]
        exact ⟨List.suffix_refl _, rfl, rfl⟩
      · rw [if_neg h]
        exact Undone.refl s

theorem sheds_closeLoop (word : String) : Sheds Undone (closeLoop word) := by
  refine Sheds.view fun s => ?_
  split
  · exact sheds_modify fun s => ⟨List.suffix_refl _, rfl, rfl⟩
  · exact sheds_raise _

theorem sheds_advanceLoop (step : Int64) (target : Target) :
    Sheds Undone (advanceLoop step target) := by
  refine Sheds.view fun s => ?_
  split
  · exact sheds_raise _
  · dsimp only
    split
    · refine sheds_bind (sheds_modify fun s => ⟨List.suffix_refl _, rfl, rfl⟩) fun _ => ?_
      exact sheds_jump target
    · exact sheds_modify fun s => ⟨List.suffix_refl _, rfl, rfl⟩

theorem sheds_popBounds (direction : LoopDirection) : Sheds Undone (popBounds direction) :=
  sheds_operands <| Operand.sheds_bind (Operand.sheds_require 2) fun _ =>
    Operand.sheds_bind Operand.sheds_popInt fun _ =>
      Operand.sheds_bind Operand.sheds_popInt fun _ => Operand.sheds_pure _

theorem sheds_runLoop (kind : LoopKind) (target : Target) : Sheds Undone (runLoop kind target) := by
  cases kind with
  | start direction =>
    exact sheds_bind (sheds_popBounds direction) fun frame => sheds_pushReturn _
  | startUnlessEqual direction =>
    refine sheds_bind (sheds_popBounds direction) fun frame => ?_
    split
    · exact sheds_jump target
    · exact sheds_pushReturn _
  | next => exact sheds_advanceLoop 1 target
  | nextBy =>
    exact sheds_bind (sheds_operands Operand.sheds_popInt) fun step => sheds_advanceLoop step target
  | leave => exact sheds_bind (sheds_closeLoop _) fun _ => sheds_jump target
  | unloop => exact sheds_closeLoop _

theorem atomic_runOp (frame : CallFrame) (op : Op) : Atomic Undone (runOp frame op) := by
  cases op with
  | callBuiltin index | callWord index => exact atomic_call index
  | push v => exact (unfailing_push v).atomic
  | branch target => exact (sheds_jump target).atomic
  | branchIfFalse target =>
    refine atomic_after (sheds_operands Operand.sheds_popFlag) fun b => ?_
    split
    · exact (sheds_jump target).atomic
    · exact (Unfailing.pure ()).atomic
  | loop kind target => exact (sheds_runLoop kind target).atomic
  | loopIndex depth =>
    refine Atomic.view fun s => ?_
    split
    · exact (unfailing_push _).atomic
    · exact (sheds_raise _).atomic
  | exit => exact (sheds_leaveWord frame).atomic
  | recurse => exact atomic_call frame.word

theorem atomic_runInstruction (frame : CallFrame) : Atomic Undone (runInstruction frame) := by
  unfold runInstruction
  split
  · exact (sheds_breach _).atomic
  · refine atomic_after (sheds_modify fun s => ⟨List.suffix_refl _, rfl, rfl⟩) fun _ => ?_
    exact atomic_runOp frame _

/-! ## Tokens -/

/-- A token that does not call a word: the second session compiles if the first one does, and then
the definition is all that has changed. -/
structure Mild (s t : Session) : Prop where
  isCompiling : t.isCompiling = s.isCompiling
  undone : s.isCompiling = true → s.Undone t

theorem Mild.refl (s : Session) : Mild s s :=
  ⟨rfl, fun _ => Undone.refl s⟩

theorem Mild.trans {s t u : Session} (h : Mild s t) (h' : Mild t u) : Mild s u :=
  ⟨h'.isCompiling.trans h.isCompiling, fun hc =>
    (h.undone hc).trans (h'.undone (h.isCompiling.trans hc))⟩

theorem compile_of_definition {s : Session} {d : Definition} (hd : s.definition? = some d)
    (location : Option Location) (op : Op) :
    ∃ t, compile location op s = .ok () t ∧ Mild s t := by
  obtain ⟨source, rest, hs, hsd⟩ := definition?_eq_some hd
  obtain ⟨t, ht, hu⟩ := undone_setDefinition hd { d with code := d.code.push ⟨location, op⟩ } rfl
  have hc : compile location op s = .ok () t := by
    show (edit (Definition.emit location op) >>= fun _ => pure ()) s = _
    unfold edit
    rw [bind_apply, bind_apply]
    unfold currentDefinition
    rw [hd]
    dsimp only
    rw [Definition.emit_eq]
    dsimp only
    rw [bind_apply, ht]
    rfl
  refine ⟨t, hc, ?_, fun _ => hu⟩
  cases ht
  simp [Session.isCompiling, Session.definition?, hs, hsd]

/-- A literal is compiled or pushed, and neither can fail. -/
theorem literal_ok (location : Location) (v : Value) (s : Session) :
    ∃ t, literal location v s = .ok () t ∧ Mild s t := by
  unfold literal
  rw [StackLang.get_bind]
  cases hc : s.isCompiling with
  | true =>
    obtain ⟨d, hd⟩ := exists_definition hc
    exact compile_of_definition hd (some location) (.push v)
  | false =>
    exact ⟨_, rfl, rfl, fun h => by rw [hc] at h; cases h⟩

theorem unfailing_literal (location : Location) (v : Value) : Unfailing (literal location v) :=
  fun s => (literal_ok location v s).elim fun t h => ⟨(), t, h.1⟩

theorem mild_literal (location : Location) (v : Value) : Sheds Mild (literal location v) := by
  intro s
  obtain ⟨t, ht, hm⟩ := literal_ok location v s
  rw [ht]
  exact hm

theorem mild_compile (location : Option Location) (op : Op) :
    Sheds Mild (compile location op) := by
  intro s
  cases hd : s.definition? with
  | some d =>
    obtain ⟨t, ht, hm⟩ := compile_of_definition hd location op
    rw [ht]
    exact hm
  | none =>
    have ht : compile location op s =
        .error (.script (s.error (.compileOnly s.currentWord))) s := by
      show (edit (Definition.emit location op) >>= fun _ => pure ()) s = _
      rw [bind_apply, edit_of_none hd]
    rw [ht]
    exact Mild.refl s

theorem mild_print (text : String) : Sheds Mild (print text) :=
  fun _ => ⟨rfl, fun _ => ⟨List.suffix_refl _, rfl, rfl⟩⟩

theorem mild_bind {p : Action α} {q : α → Action β} (hp : Sheds Mild p)
    (hq : ∀ a, Sheds Mild (q a)) : Sheds Mild (p >>= q) :=
  Sheds.bind (U := Mild) Mild.trans hp hq

theorem mild_raise (cause : Cause) : Sheds Mild (raise cause : Action α) :=
  fun s => Mild.refl s

theorem mild_stringLiteral (location : Location) (form : StringForm) (text : String) :
    Sheds Mild (stringLiteral location form text) := by
  cases form with
  | display => exact mild_print text
  | push => exact mild_bind (mild_literal _ _) fun _ => mild_literal _ _
  | print =>
    refine Sheds.view fun s => ?_
    split
    · refine Sheds.view fun s => ?_
      split
      · exact mild_raise _
      · refine mild_bind (mild_compile _ _) fun _ => ?_
        exact mild_bind (mild_compile _ _) fun _ => mild_compile _ _
    · exact mild_print text

theorem atomic_stringLiteral (location : Location) (form : StringForm) (text : String) :
    Atomic Undone (stringLiteral location form text) := by
  cases form with
  | display => exact (unfailing_print text).atomic
  | push => exact ((unfailing_literal _ _).bind fun _ => unfailing_literal _ _).atomic
  | print =>
    refine Atomic.view fun s => ?_
    split
    · refine Atomic.view fun s => ?_
      split
      · exact (sheds_raise _).atomic
      · refine atomic_after (sheds_compile _ _) fun _ => ?_
        exact atomic_after (sheds_compile _ _) fun _ => (sheds_compile _ _).atomic
    · exact (unfailing_print text).atomic

theorem atomic_word (location : Location) (name : String) : Atomic Undone (word location name) := by
  refine atomic_after (sheds_lookup name) fun x => Atomic.view fun s => ?_
  dsimp only
  split
  · intro s e t h
    cases h
    exact Undone.refl s
  · split
    · exact (sheds_compile _ _).atomic
    · exact atomic_call _

theorem atomic_runLexeme (location : Location) (lexeme : Lexeme) :
    Atomic Undone (runLexeme location lexeme) := by
  cases lexeme with
  | number value => exact (unfailing_literal _ _).atomic
  | string form text => exact atomic_stringLiteral _ _ _
  | word name => exact atomic_word _ _

theorem unfailing_recordToken (token : Token) : Unfailing (recordToken token) := by
  intro s
  unfold recordToken
  rw [StackLang.get_bind]
  cases s.definition? with
  | some d => exact unfailing_setDefinition _ s
  | none => exact Unfailing.pure () s

theorem atomic_runToken (token : Token) : Atomic Undone (runToken token) := by
  refine Atomic.view fun s => ?_
  refine atomic_after (sheds_modify fun s => ⟨List.suffix_refl _, rfl, rfl⟩) fun _ => ?_
  refine (atomic_runLexeme _ _).then_unfailing fun _ => ?_
  split
  · exact unfailing_recordToken token
  · exact Unfailing.pure ()

theorem atomic_operation : Atomic Undone operation := by
  refine Atomic.view fun s => ?_
  split
  · exact atomic_runInstruction _
  · refine atomic_after (sheds_nextToken?.mono Ahead.undone) fun found => ?_
    cases found with
    | some token => exact atomic_runToken token
    | none => exact (Unfailing.pure ()).atomic

end Action

end StackLang
