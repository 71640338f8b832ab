import StackLang.Proofs.Session.Builtins

/-!
# Steps keep a session valid

One operation of a valid session, by what it may be: a call, a jump, an operation on loops, a
token.  The only operation that can leave the running word without code is the call of a word that
is still hidden.

* `triple_call`, `triple_leaveWord`: calls put the caller's frame under a marker and find it again.
* `triple_runInstruction`, `triple_runToken`, `triple_step`: what an operation keeps.
-/

namespace StackLang

/-- The dictionary entry that an operation of a word calls, given the word's own entry. -/
def Op.callee? (word : Nat) : Op → Option Nat
  | callBuiltin index | callWord index => some index
  | recurse => some word
  | _ => none

theorem Action.runOp_of_callee? {f : CallFrame} {op : Op} {index : Nat}
    (h : op.callee? f.word = some index) : runOp f op = call index := by
  cases op <;> cases h <;> rfl

namespace Session

open StackLang.Action

variable {φ : Option CallFrame → Prop} {s : Session}

/-- Where the session is and which words are running does not matter. -/
theorem Valid.elsewhere (h : s.Valid φ) (location : Option Location) (builtin : Option String)
    (calls : List CallItem) : Valid φ { s with location, builtin, calls } :=
  ⟨⟨h.entries, h.definition, h.reserved, h.queued, h.linked⟩, h.running⟩

/-- Another return stack with the same markers. -/
theorem Valid.setReturns (h : s.Valid φ) {returns : ReturnStack}
    (hr : Linked s.frame returns.items = Linked s.frame s.returns.items) :
    Valid φ { s with returns } :=
  ⟨⟨h.entries, h.definition, h.reserved, h.queued, hr ▸ h.linked⟩, h.running⟩

theorem Valid.mono {ψ : Option CallFrame → Prop} (h : s.Valid φ) (hφ : φ s.frame → ψ s.frame) :
    s.Valid ψ :=
  ⟨h.toConsistent, hφ h.running⟩

/-- The word that runs was called before it had any code. -/
def BlankFrame (frame : Option CallFrame) : Prop :=
  ∃ f, frame = some f ∧ f.Blank

/-- The dictionary entry that the next instruction calls, if it is a call. -/
def callee? (s : Session) : Option Nat :=
  s.frame.bind fun f => f.code[f.next]?.bind fun x => x.op.callee? f.word

/-- The next instruction calls a word that is still hidden. -/
def CallsHidden (s : Session) : Prop :=
  ∃ i e, s.callee? = some i ∧ s.dictionary.get? i = some e ∧ e.visible = false

/-! ## Calls -/

theorem triple_finishWord (name : String) :
    Triple (Valid φ) (finishWord name) (fun _ => Valid φ) SoundWords := by
  refine Triple.view fun s => ((insensitive_valid φ).triple_notify _).bind fun _ => ?_
  split
  · exact (insensitive_valid φ).triple_notify _
  · exact Triple.pure fun _ h => h

theorem triple_callBuiltin (name : String) (word : Builtin) :
    Triple (Valid φ) (callBuiltin name word) (fun _ => Valid φ) SoundWords := by
  refine Triple.bind (Q := fun _ => Valid φ) (Triple.modify fun s h => h.elsewhere ..) fun _ => ?_
  refine (triple_builtin word).bind fun _ => ?_
  refine Triple.bind (Q := fun _ => Valid φ) (Triple.modify fun s h => ?_) fun _ =>
    triple_finishWord name
  exact h.elsewhere s.location none s.calls.tail

theorem callCompiled_eq (index : Nat) (name : String) (code : Code) (s : Session) :
    callCompiled index name code s = match s.returns.push? (.call s.frame) with
      | some returns => .ok () { s with
          returns := returns
          calls := ⟨name, s.location.getD .unspecified⟩ :: s.calls
          frame := some ⟨index, name, code, 0⟩ }
      | none => .error (.script (s.error (.returnStackOverflow s.returns.limit)))
          { s with frame := none } := by
  unfold callCompiled
  rw [StackLang.get_bind, modify_bind, bind_apply]
  unfold pushReturn
  dsimp only
  cases s.returns.push? (.call s.frame) <;> rfl

theorem call_of_compiled {index : Nat} {entry : Entry} {code : Code}
    (he : s.dictionary.get? index = some entry) (hb : entry.body = .compiled code) :
    call index s = callCompiled index entry.name code { s with
      observers := s.observers.record (.starting entry.name entry.signature) } := by
  unfold call
  rw [StackLang.get_bind, he]
  dsimp only
  rw [hb]
  rfl

theorem call_of_builtin {index : Nat} {entry : Entry} {word : Builtin}
    (he : s.dictionary.get? index = some entry) (hb : entry.body = .builtin word) :
    call index s = callBuiltin entry.name word { s with
      observers := s.observers.record (.starting entry.name entry.signature) } := by
  unfold call
  rw [StackLang.get_bind, he]
  dsimp only
  rw [hb]
  rfl

/-- The end of a word is told, and changes nothing else. -/
theorem exists_finishWord (name : String) (s : Session) :
    ∃ observers, finishWord name s = .ok () { s with observers } := by
  unfold finishWord
  rw [StackLang.get_bind]
  split
  · exact ⟨_, rfl⟩
  · exact ⟨_, rfl⟩

theorem leaveWord_eq (frame : CallFrame) (s : Session) :
    leaveWord frame s = match s.returns.exitCall with
      | (none, _) => .error (.breach (.lostMarker frame.name)) s
      | (some caller, returns) =>
        finishWord frame.name { s with frame := caller, returns, calls := s.calls.tail } := by
  unfold leaveWord
  rw [StackLang.get_bind]
  split
  · rename_i h
    rw [h]
    rfl
  · rename_i h
    rw [h]
    rfl

/-- A called word starts at its first instruction, and its caller waits under the new marker. -/
theorem triple_callCompiled {index : Nat} {name : String} {code : Code}
    (hφ : φ (some ⟨index, name, code, 0⟩)) :
    Triple (Valid Able) (callCompiled index name code) (fun _ => Valid φ) SoundWords := by
  intro s h
  rw [callCompiled_eq]
  cases hr : s.returns.push? (.call s.frame) with
  | none => exact h.entries
  | some returns =>
    refine ⟨⟨h.entries, h.definition, h.reserved, h.queued, ?_⟩, hφ⟩
    show Linked (some _) returns.items
    rw [ReturnStack.items_of_push? hr]
    exact ⟨h.running, h.linked⟩

/-- A word that is not hidden has finished code, or it is built in. -/
theorem triple_call (index : Nat) :
    Triple (fun s => s.Valid Able ∧ ∀ e, s.dictionary.get? index = some e → e.visible = true)
      (call index) (fun _ => Valid Able) SoundWords := by
  refine Triple.get_bind fun s ⟨hs, hvisible⟩ => ?_
  have start : ∀ t, t = s → t.Valid Able := fun t ht => ht ▸ hs
  split
  · exact triple_raise fun t ht => (start t ht).entries
  · rename_i entry he
    refine (((insensitive_valid Able).triple_notify _).mono start fun _ _ h => h).bind fun _ => ?_
    split
    · exact triple_callBuiltin _ _
    · rename_i code hb
      have hf := (hs.entries index entry he).visible code (hvisible entry he) hb
      refine triple_callCompiled fun f h => ?_
      cases h
      exact ⟨hf, hf.size_pos⟩

/-- A word that is hidden has no code. -/
theorem triple_callHidden (index : Nat) :
    Triple (fun s => s.Valid Able ∧ ∃ e, s.dictionary.get? index = some e ∧ e.visible = false)
      (call index) (fun _ => Valid BlankFrame) SoundWords := by
  refine Triple.get_bind fun s ⟨hs, entry, he, hv⟩ => ?_
  have start : ∀ t, t = s → t.Valid Able := fun t ht => ht ▸ hs
  rw [he]
  refine (((insensitive_valid Able).triple_notify _).mono start fun _ _ h => h).bind fun _ => ?_
  rw [(hs.entries index entry he).hidden hv]
  exact triple_callCompiled ⟨_, rfl, rfl, rfl⟩

/-- Leaving a word finds its marker, and the caller can go on. -/
theorem triple_leaveWord (f : CallFrame) {g : CallFrame} :
    Triple (Valid (· = some g)) (leaveWord f) (fun _ => Valid Able) SoundWords := by
  refine Triple.get_bind fun s h => ?_
  obtain ⟨caller, hc, hready, hl⟩ := ReturnStack.linked_exitCall (h.running ▸ h.linked)
  split
  · rename_i he
    rw [he] at hc
    cases hc
  · rename_i caller' returns he
    simp only [he] at hc hl
    cases hc
    refine Triple.bind (Q := fun _ => Valid Able) (Triple.modify fun t ht => ?_) fun _ =>
      triple_finishWord f.name
    subst ht
    exact ⟨⟨h.entries, h.definition, h.reserved, h.queued, hl⟩, hready⟩

/-! ## Instructions -/

/-- The running word goes on at another instruction. -/
theorem Valid.goOn {f g : CallFrame} (h : s.Valid (· = some f)) (hg : g.Ready) :
    Valid Able { s with frame := some g } where
  entries := h.entries
  definition := h.definition
  reserved := h.reserved
  queued := h.queued
  linked := by
    have := h.linked
    rwa [h.running, linked_congr (g := g)] at this
  running := fun _ hf => Option.some.inj hf ▸ hg

/-- A branch of finished code goes to another instruction of the code. -/
theorem triple_jump {g : CallFrame} {target : Target} (hg : g.code.Finished)
    (ht : ∃ n, target = some n ∧ n < Array.size g.code) :
    Triple (Valid (· = some g)) (jump target) (fun _ => Valid Able) SoundWords := by
  intro s h
  obtain ⟨n, rfl, hn⟩ := ht
  rw [jump_inside h.running hn]
  exact h.goOn ⟨hg, hn⟩

/-- A word whose next instruction exists may go on as it is. -/
theorem Valid.able {g : CallFrame} (h : s.Valid (· = some g)) (hg : g.Ready) : s.Valid Able :=
  h.mono fun hf _ he => Option.some.inj (hf.symm.trans he) ▸ hg

theorem triple_able {α : Type} {g : CallFrame} (hg : g.Ready) {p : Action α}
    (h : Triple (Valid (· = some g)) p (fun _ => Valid (· = some g)) SoundWords) :
    Triple (Valid (· = some g)) p (fun _ => Valid Able) SoundWords :=
  h.mono (fun _ hs => hs) fun _ _ hs => hs.able hg

theorem triple_pushLoop (frame : LoopFrame) :
    Triple (Valid φ) (pushReturn (.loop frame)) (fun _ => Valid φ) SoundWords := by
  intro s h
  unfold pushReturn
  cases hr : s.returns.push? (.loop frame) with
  | none => exact h.entries
  | some returns =>
    refine h.setReturns ?_
    rw [ReturnStack.items_of_push? hr, linked_loop]

theorem triple_popBounds (direction : LoopDirection) :
    Triple (Valid φ) (popBounds direction) (fun _ => Valid φ) SoundWords :=
  (insensitive_valid φ).triple_operands _

theorem triple_closeLoop (word : String) :
    Triple (Valid φ) (closeLoop word) (fun _ => Valid φ) SoundWords := by
  refine Triple.get_bind fun s hs => ?_
  split
  · rename_i frame returns hr
    refine Triple.modify fun t ht => ?_
    subst ht
    exact hs.setReturns (ReturnStack.linked_popLoop? hr)
  · exact triple_raise fun t ht => ht ▸ hs.entries

theorem triple_advanceLoop {g : CallFrame} {target : Target} (hg : g.Ready) (step : Int64)
    (ht : ∃ n, target = some n ∧ n < Array.size g.code) :
    Triple (Valid (· = some g)) (advanceLoop step target) (fun _ => Valid Able) SoundWords := by
  refine Triple.get_bind fun s hs => ?_
  split
  · exact triple_raise fun t ht => ht ▸ hs.entries
  · rename_i frame hl
    dsimp only
    split
    · refine Triple.bind (Q := fun _ => Valid (· = some g)) (Triple.modify fun t ht => ?_)
        fun _ => triple_jump hg.finished ht
      subst ht
      exact hs.setReturns (ReturnStack.linked_setLoop ..)
    · refine Triple.modify fun t ht => Valid.able ?_ hg
      subst ht
      cases hp : t.returns.popLoop? with
      | none => exact hs
      | some found => exact hs.setReturns (ReturnStack.linked_popLoop? hp)

theorem triple_runLoop {g : CallFrame} {target : Target} (hg : g.Ready) (kind : LoopKind)
    (ht : ∃ n, target = some n ∧ n < Array.size g.code) :
    Triple (Valid (· = some g)) (runLoop kind target) (fun _ => Valid Able) SoundWords := by
  cases kind with
  | start direction =>
    refine (triple_popBounds direction).bind fun frame => ?_
    exact triple_able hg (triple_pushLoop frame)
  | startUnlessEqual direction =>
    refine (triple_popBounds direction).bind fun frame => ?_
    split
    · exact triple_jump hg.finished ht
    · exact triple_able hg (triple_pushLoop frame)
  | next => exact triple_advanceLoop hg 1 ht
  | nextBy =>
    exact ((insensitive_valid _).triple_operands _).bind fun step => triple_advanceLoop hg step ht
  | leave => exact (triple_closeLoop _).bind fun _ => triple_jump hg.finished ht
  | unloop => exact triple_able hg (triple_closeLoop _)

/-- An operation of a word whose code is finished.  The instruction behind it exists, unless the
operation leaves the word. -/
theorem triple_runOp {f g : CallFrame} {op : Op} (hg : op ≠ .exit → g.Ready)
    (ht : ∀ t, op.target? = some t → ∃ n, t = some n ∧ n < Array.size g.code) :
    Triple (fun s => s.Valid (· = some g) ∧ ∀ i e, op.callee? f.word = some i →
        s.dictionary.get? i = some e → e.visible = true)
      (runOp f op) (fun _ => Valid Able) SoundWords := by
  have plain {p : Action Unit}
      (h : Triple (Valid (· = some g)) p (fun _ => Valid Able) SoundWords) :
      Triple (fun s => s.Valid (· = some g) ∧ ∀ i e, op.callee? f.word = some i →
        s.dictionary.get? i = some e → e.visible = true) p (fun _ => Valid Able) SoundWords :=
    h.mono (fun _ hs => hs.1) fun _ _ hs => hs
  cases op with
  | callBuiltin index | callWord index =>
    exact (triple_call index).mono (fun _ hs => ⟨hs.1.able (hg nofun), fun e => hs.2 index e rfl⟩)
      fun _ _ hs => hs
  | push v => exact plain (triple_able (hg nofun) ((insensitive_valid _).triple_push v))
  | branch target => exact plain (triple_jump (hg nofun).finished (ht target rfl))
  | branchIfFalse target =>
    refine plain (((insensitive_valid _).triple_operands _).bind fun b => ?_)
    split
    · exact triple_jump (hg nofun).finished (ht target rfl)
    · exact triple_able (hg nofun) (Triple.pure fun _ hs => hs)
  | loop kind target => exact plain (triple_runLoop (hg nofun) kind (ht target rfl))
  | loopIndex depth =>
    refine plain (triple_able (hg nofun) (Triple.view fun s => ?_))
    split
    · exact (insensitive_valid _).triple_push _
    · exact triple_raise fun _ hs => hs.entries
  | exit => exact plain (triple_leaveWord f)
  | recurse =>
    exact (triple_call f.word).mono
      (fun _ hs => ⟨hs.1.able (hg nofun), fun e => hs.2 f.word e rfl⟩)
      fun _ _ hs => hs

/-- The frame moves to the next instruction before the present one runs. -/
theorem Valid.advance {f : CallFrame} (h : s.Valid (· = some f)) (location : Option Location) :
    Valid (· = some { f with next := f.next + 1 })
      { s with frame := some { f with next := f.next + 1 }, location } where
  entries := h.entries
  definition := h.definition
  reserved := h.reserved
  queued := h.queued
  linked := by
    have := h.linked
    rwa [h.running, linked_congr (g := { f with next := f.next + 1 })] at this
  running := rfl

theorem triple_runInstruction {f : CallFrame} (hf : f.Ready) :
    Triple (fun s => s.Valid (· = some f) ∧ ¬ s.CallsHidden) (runInstruction f)
      (fun _ => Valid Able) SoundWords := by
  obtain ⟨x, hx⟩ : ∃ x, f.code[f.next]? = some x := ⟨_, Array.getElem?_eq_getElem hf.next_lt⟩
  unfold runInstruction
  rw [hx]
  refine Triple.bind (Triple.modify fun s ⟨hs, hv⟩ => ⟨hs.advance _, fun i e hi he => ?_⟩)
    fun _ => triple_runOp (g := { f with next := f.next + 1 }) (fun hop => ?_) fun t ht => ?_
  · exact ⟨hf.finished, hf.finished.succ_lt hx hop⟩
  · exact hf.finished.inside f.next x t hx ht
  · cases hev : e.visible with
    | true => rfl
    | false => exact (hv ⟨i, e, by simp [callee?, hs.running, hx, hi], he, hev⟩).elim

/-- The call of a hidden word leaves the session with a word that has no code. -/
theorem triple_runInstruction_hidden {f : CallFrame} (hf : f.Ready) :
    Triple (fun s => s.Valid (· = some f) ∧ s.CallsHidden) (runInstruction f)
      (fun _ => Valid BlankFrame) SoundWords := by
  intro s ⟨hs, i, e, hi, he, hv⟩
  obtain ⟨x, hx⟩ : ∃ x, f.code[f.next]? = some x := ⟨_, Array.getElem?_eq_getElem hf.next_lt⟩
  simp only [callee?, hs.running, hx, Option.bind_some] at hi
  have hop : x.op ≠ .exit := by
    intro hop
    rw [hop] at hi
    cases hi
  unfold runInstruction
  rw [hx]
  dsimp only
  rw [runOp_of_callee? hi]
  have ready := (hs.advance (x.location.or s.location)).able
    ⟨hf.finished, hf.finished.succ_lt hx hop⟩
  exact triple_callHidden i _ ⟨ready, e, he, hv⟩

/-! ## Tokens -/

theorem triple_compile (location : Option Location) {op : Op} (hop : op.target? = none) :
    Triple (Valid φ) (compile location op) (fun _ => Valid φ) SoundWords := by
  refine Triple.discard ((triple_edit (Φ := fun _ => True) fun d hd => ?_).mono (fun _ h => h)
    fun _ _ h => h.1)
  refine ⟨hd.push location fun t ht => ?_, rfl, trivial⟩
  rw [hop] at ht
  cases ht

theorem triple_literal (location : Location) (v : Value) :
    Triple (Valid φ) (literal location v) (fun _ => Valid φ) SoundWords := by
  refine Triple.view fun s => ?_
  split
  · exact triple_compile _ rfl
  · exact (insensitive_valid φ).triple_push v

theorem triple_stringLiteral (location : Location) (form : StringForm) (text : String) :
    Triple (Valid φ) (stringLiteral location form text) (fun _ => Valid φ) SoundWords := by
  cases form with
  | display => exact (insensitive_valid φ).triple_print text
  | push => exact (triple_literal location _).bind fun _ => triple_literal location _
  | print =>
    refine Triple.view fun s => ?_
    split
    · refine Triple.view fun t => ?_
      split
      · exact (insensitive_valid φ).triple_raise _
      · refine (triple_compile _ rfl).bind fun _ => ?_
        exact (triple_compile _ rfl).bind fun _ => triple_compile _ rfl
    · exact (insensitive_valid φ).triple_print text

/-- A name means a visible word. -/
theorem triple_lookup (name : String) :
    Triple (Valid φ) (lookup name) (fun found s => s.Valid φ ∧
      s.dictionary.get? found.1 = some found.2 ∧ found.2.visible = true) SoundWords := by
  intro s hs
  unfold lookup
  cases hf : s.dictionary.find? name with
  | none => exact hs.entries
  | some found =>
    obtain ⟨-, he, ha, -⟩ := Dictionary.find?_eq_some_iff.1 hf
    simp only [Dictionary.answers, Bool.and_eq_true] at ha
    exact ⟨hs, he, ha.1⟩

theorem triple_word (location : Location) (name : String) :
    Triple (Valid (· = none)) (word location name) (fun _ => Valid Able) SoundWords := by
  refine (triple_lookup name).bind fun ⟨index, entry⟩ => ?_
  have able {s : Session} (h : s.Valid (· = none)) : s.Valid Able :=
    h.mono fun hf f he => by rw [hf] at he; cases he
  have compileCall (op : Op) (hop : op.target? = none) :
      Triple (fun s => s.Valid (· = none) ∧ s.dictionary.get? index = some entry ∧
        entry.visible = true) (compile (some location) op) (fun _ => Valid Able) SoundWords :=
    (triple_compile _ hop).mono (fun _ h => h.1) fun _ _ h => able h
  have run : Triple (fun s => s.Valid (· = none) ∧ s.dictionary.get? index = some entry ∧
      entry.visible = true) (call index) (fun _ => Valid Able) SoundWords :=
    (triple_call index).mono (fun s h => ⟨able h.1, fun e he => by
      rw [h.2.1] at he
      cases he
      exact h.2.2⟩) fun _ _ h => h
  refine Triple.view fun s => ?_
  dsimp only
  split
  · exact triple_raise_bind fun _ h => h.1.entries
  · split
    · split
      · exact compileCall _ rfl
      · exact compileCall _ rfl
    · exact run

theorem triple_recordToken (token : Token) :
    Triple (Valid φ) (recordToken token) (fun _ => Valid φ) SoundWords := by
  refine Triple.get_bind fun s hs => ?_
  split
  · rename_i d hd
    refine triple_setDefinition fun t ht => ?_
    subst ht
    refine ⟨hs, fun x hx => ?_⟩
    cases hx
    exact ⟨(hs.definition d hd).record _, fun e => hs.reserved d e hd⟩
  · exact Triple.pure fun t ht => ht ▸ hs

theorem triple_runToken (token : Token) :
    Triple (Valid (· = none)) (runToken token) (fun _ => Valid Able) SoundWords := by
  have able {p : Action Unit}
      (h : Triple (Valid (· = none)) p (fun _ => Valid (· = none)) SoundWords) :
      Triple (Valid (· = none)) p (fun _ => Valid Able) SoundWords :=
    h.mono (fun _ hs => hs) fun _ _ hs => hs.mono fun hf f he => by rw [hf] at he; cases he
  refine Triple.view fun s => ?_
  refine Triple.bind (Q := fun _ => Valid (· = none))
    (Triple.modify fun t ht => ht.elsewhere ..) fun _ => ?_
  refine Triple.bind (Q := fun _ => Valid Able) ?_ fun _ => ?_
  · cases token.lexeme with
    | number value => exact able (triple_literal _ _)
    | string form text => exact able (triple_stringLiteral _ _ _)
    | word name => exact triple_word _ _
  · split
    · exact triple_recordToken token
    · exact Triple.pure fun _ hs => hs

/-! ## The end of a source -/

/-- What is left of the sources begins behind their first, unless it is all of them. -/
theorem unusedSources_eq_ok {sources rest : List Pending} (h : unusedSources sources = .ok rest) :
    rest = sources ∨ ∀ p ∈ rest, p ∈ sources.tail := by
  induction sources with
  | nil =>
    cases h
    exact .inl rfl
  | cons source sources ih =>
    unfold unusedSources at h
    split at h
    · split at h
      · cases h
      · rcases ih h with rfl | hr
        · exact .inr fun _ hp => hp
        · exact .inr fun p hp => List.mem_of_mem_tail (hr p hp)
    · cases h
      exact .inl rfl

/-- The source that comes to the front has tokens left. -/
theorem isExhausted_of_unusedSources {sources rest : List Pending} {p : Pending}
    (h : unusedSources sources = .ok (p :: rest)) : p.isExhausted = false := by
  induction sources with
  | nil => cases h
  | cons source sources ih =>
    unfold unusedSources at h
    split at h
    · split at h
      · cases h
      · exact ih h
    · rename_i he
      cases h
      exact Bool.eq_false_iff.2 he

/-- Only the first source has a definition, so none of the others brings one to the front. -/
theorem Consistent.definition?_unusedSources {sources : List Pending} (h : s.Consistent)
    (hu : unusedSources s.sources = .ok sources) {d : Definition}
    (hd : sources.head?.bind (·.definition) = some d) : s.definition? = some d := by
  rcases unusedSources_eq_ok hu with rfl | ht
  · exact hd
  · cases sources with
    | nil => cases hd
    | cons p rest =>
      have hp := h.queued p (ht p List.mem_cons_self)
      simp [hp] at hd

theorem triple_dropUsedSources :
    Triple (Valid φ) dropUsedSources (fun _ => Valid φ) SoundWords := by
  refine Triple.get_bind fun s hs => ?_
  split
  · split
    · rename_i sources hu
      rintro t rfl
      refine ⟨⟨hs.entries, fun d hd => ?_, fun d e hd => ?_, fun p hp => ?_, hs.linked⟩,
        hs.running⟩
      · exact hs.definition d (hs.definition?_unusedSources hu hd)
      · exact hs.reserved d e (hs.definition?_unusedSources hu hd)
      · rcases unusedSources_eq_ok hu with rfl | ht
        · exact hs.queued p hp
        · exact hs.queued p (ht p (List.mem_of_mem_tail hp))
    · exact Triple.bind (Q := fun _ (t : Session) => t.dictionary.Sound) (fun t _ => hs.entries)
        fun _ => triple_raise fun _ h => h
  · exact Triple.pure fun t ht => ht ▸ hs

/-! ## Steps -/

theorem triple_operation :
    Triple (fun s => s.Valid Able ∧ ¬ s.CallsHidden) operation (fun _ => Valid Able)
      SoundWords := by
  refine Triple.get_bind fun s ⟨hs, hc⟩ => ?_
  split
  · rename_i f hf
    refine (triple_runInstruction (hs.running f hf)).mono (fun t ht => ?_) fun _ _ h => h
    subst ht
    exact ⟨hs.mono fun _ => hf, hc⟩
  · rename_i hf
    have start : ∀ t, t = s → t.Valid (· = none) := fun t ht => ht ▸ hs.mono fun _ => hf
    refine (((insensitive_valid _).triple_nextToken?).mono start fun _ _ h => h).bind
      fun found => ?_
    cases found with
    | some token => exact triple_runToken token
    | none =>
      exact Triple.pure fun t ht => ht.mono fun hf f he => by rw [hf] at he; cases he

/-- A step of a valid session breaks no rule of the machine and leaves a valid session, unless it
calls a hidden word. -/
theorem triple_step :
    Triple (fun s => s.Valid Able ∧ ¬ s.CallsHidden) step (fun _ => Valid Able) SoundWords := by
  refine Triple.get_bind fun s hs => ?_
  dsimp only
  split
  · exact triple_raise_bind fun t ht => ht ▸ hs.1.entries
  · refine Triple.bind ?_ fun _ => triple_dropUsedSources
    exact triple_operation.mono (fun t ht => ht ▸ hs) fun _ _ h => h

theorem triple_operation_hidden :
    Triple (fun s => s.Valid Able ∧ s.CallsHidden) operation (fun _ => Valid BlankFrame)
      SoundWords := by
  refine Triple.get_bind fun s ⟨hs, hc⟩ => ?_
  split
  · rename_i f hf
    refine (triple_runInstruction_hidden (hs.running f hf)).mono (fun t ht => ?_)
      fun _ _ h => h
    subst ht
    exact ⟨hs.mono fun _ => hf, hc⟩
  · rename_i hf
    obtain ⟨i, e, hi, -⟩ := hc
    simp [callee?, hf] at hi

/-- A step that calls a hidden word leaves a word without code behind, if it does not fail. -/
theorem triple_step_hidden :
    Triple (fun s => s.Valid Able ∧ s.CallsHidden) step (fun _ => Valid BlankFrame)
      SoundWords := by
  refine Triple.get_bind fun s hs => ?_
  dsimp only
  split
  · exact triple_raise_bind fun t ht => ht ▸ hs.1.entries
  · refine Triple.bind ?_ fun _ => triple_dropUsedSources
    exact triple_operation_hidden.mono (fun t ht => ht ▸ hs) fun _ _ h => h

/-- While a word runs no source is dropped. -/
theorem dropUsedSources_of_frame {f : CallFrame} (hf : s.frame = some f) :
    dropUsedSources s = .ok () s := by
  unfold dropUsedSources
  rw [StackLang.get_bind, if_neg (by simp [hf])]
  rfl

theorem dropUsedSources_of_idle (hf : s.frame = none) :
    dropUsedSources s = match unusedSources s.sources with
      | .ok sources => .ok () { s with sources }
      | .error d => .error (.script (error { s with location := some d.location } d.unclosed))
        { s with location := some d.location } := by
  unfold dropUsedSources
  rw [StackLang.get_bind, if_pos (by simp [hf])]
  cases unusedSources s.sources <;> rfl

/-- Nothing is dropped while a word runs, or while the source in front is not used up. -/
theorem dropUsedSources_of_unused (h : s.frame = none → unusedSources s.sources = .ok s.sources) :
    dropUsedSources s = .ok () s := by
  obtain hf | ⟨f, hf⟩ := Option.eq_none_or_eq_some s.frame
  · rw [dropUsedSources_of_idle hf, h hf]
  · exact dropUsedSources_of_frame hf

theorem idle_of_hasPending (hp : s.hasPending = false) : s.frame = none ∧ s.sources = [] := by
  cases hf : s.frame <;> cases hs : s.sources <;> simp_all [hasPending]

theorem step_of_cancelled (hc : s.cancelled = true) :
    step s = .error (.script (s.error .cancelled)) s := by
  unfold step
  rw [StackLang.get_bind]
  simp only [hc, if_true]
  rfl

theorem step_of_running (hc : s.cancelled = false) :
    step s = (operation >>= fun _ => dropUsedSources) s := by
  unfold step
  rw [StackLang.get_bind]
  simp only [hc, Bool.false_eq_true, if_false]

/-- A step that succeeds is an operation, and then used sources are dropped. -/
theorem exists_of_step_dropped {t : Session} (h : step s = .ok () t) :
    ∃ u, operation s = .ok () u ∧ dropUsedSources u = .ok () t := by
  cases hc : s.cancelled with
  | true =>
    rw [step_of_cancelled hc] at h
    cases h
  | false =>
    rw [step_of_running hc] at h
    obtain ⟨_, u, hu, h⟩ := exists_of_bind h
    exact ⟨u, hu, h⟩

theorem operation_of_frame {f : CallFrame} (hf : s.frame = some f) :
    operation s = runInstruction f s := by
  unfold operation
  rw [StackLang.get_bind]
  simp only [hf]

/-- At the end of a source nothing happens. -/
theorem operation_of_exhausted {p : Pending} {rest : List Pending} (hf : s.frame = none)
    (hs : s.sources = p :: rest) (hp : p.nextToken? = none) : operation s = .ok () s := by
  unfold operation
  rw [StackLang.get_bind, hf]
  dsimp only
  rw [bind_apply, nextToken?, hs]
  dsimp only
  rw [hp]
  rfl

theorem runInstruction_eq {f : CallFrame} {x : Instruction} (hx : f.code[f.next]? = some x) :
    runInstruction f s = runOp f x.op { s with
      frame := some { f with next := f.next + 1 }
      location := x.location.or s.location } := by
  unfold runInstruction
  rw [hx]
  rfl

/-- A word without code has no first instruction. -/
theorem step_blank {f : CallFrame} (hf : s.frame = some f) (hb : f.Blank)
    (hc : s.cancelled = false) : step s = .error (.breach (.ranOff 0 f.name)) s := by
  rw [step_of_running hc, bind_apply, operation_of_frame hf]
  unfold runInstruction
  rw [hb.1, hb.2]
  rfl

theorem stepOnce_eq (s : Session) :
    stepOnce s =
      if s.hasPending = true then match checked step s with
        | .ok _ t => .ok t.hasPending t
        | .error e t => .error e t
      else .ok false s := by
  unfold stepOnce
  rw [StackLang.get_bind]
  split
  · rw [bind_apply]
    cases checked step s <;> rfl
  · rfl

theorem processSource_of_run (hm : s.mode ≠ .step) (fuel : Nat) (path source : String) :
    processSource fuel path source s =
      runPending fuel { s with sources := s.sources ++ [.ofSource path source] } := by
  show (get >>= fun t : Session =>
    if t.mode = .step then checked dropUsedSources else runPending fuel) { s with
      sources := s.sources ++ [.ofSource path source] } = _
  rw [StackLang.get_bind, if_neg hm]

theorem evaluate_of_run (hm : s.mode ≠ .step) (fuel : Nat) (source : String) :
    evaluate fuel source s =
      runPending fuel { s with sources := s.sources ++ [.ofSource inputPath source] } :=
  processSource_of_run hm fuel inputPath source

theorem evaluate_of_step (hm : s.mode = .step) (fuel : Nat) (source : String) :
    evaluate fuel source s =
      checked dropUsedSources { s with
        sources := s.sources ++ [.ofSource inputPath source] } := by
  show (get >>= fun t : Session =>
    if t.mode = .step then checked dropUsedSources else runPending fuel) { s with
      sources := s.sources ++ [.ofSource inputPath source] } = _
  rw [StackLang.get_bind, if_pos hm]

end Session

end StackLang
