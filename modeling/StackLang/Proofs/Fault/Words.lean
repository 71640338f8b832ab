import StackLang.Proofs.Fault.Operands
import StackLang.Proofs.Session.Consistent

/-!
# Built-in words that fail without a trace

An error drops the definition that is open, so a word may have changed that definition when it
fails, and may have lost operands, but no more.

* `Session.Undone`: a difference between sessions that an error wipes out, but for lost operands.
* `atomic_builtin`: a built-in word that fails leaves no other difference.
-/

namespace StackLang

namespace Session

/-- What an error leaves of the dictionary: the entries before those of open definitions. -/
def cut (s : Session) : Dictionary :=
  match s.openWords.min? with
  | some word => s.dictionary.forgetBackTo word
  | none => s.dictionary

theorem dictionary_abort (s : Session) (e : ScriptError) : (s.abort e).dictionary = s.cut := rfl

/-- The second session has lost operands, and differs otherwise only in what an error drops. -/
structure Undone (s t : Session) : Prop where
  stack : t.stack <:+ s.stack
  cells : t.cells = s.cells
  cut : t.cut = s.cut

theorem Undone.refl (s : Session) : s.Undone s :=
  ⟨List.suffix_refl _, rfl, rfl⟩

theorem Undone.trans {s t u : Session} (h : s.Undone t) (h' : t.Undone u) : s.Undone u :=
  ⟨h'.stack.trans h.stack, h'.cells.trans h.cells, h'.cut.trans h.cut⟩

/-- The second session has only used up tokens. -/
def Ahead (s t : Session) : Prop :=
  ∃ sources, t = { s with sources } ∧
    sources.map (·.definition) = s.sources.map (·.definition)

theorem Ahead.refl (s : Session) : s.Ahead s :=
  ⟨s.sources, rfl, rfl⟩

theorem Ahead.trans {s t u : Session} (h : s.Ahead t) (h' : t.Ahead u) : s.Ahead u := by
  obtain ⟨sources, rfl, hd⟩ := h
  obtain ⟨sources', rfl, hd'⟩ := h'
  exact ⟨sources', rfl, hd'.trans hd⟩

theorem openWords_eq (s : Session) :
    s.openWords = (s.sources.map (·.definition)).filterMap (Option.map (·.word)) := by
  rw [openWords, List.filterMap_map]
  rfl

/-- Only the dictionary and the open definitions matter to what an error leaves of it. -/
theorem cut_congr {s t : Session} (hd : t.dictionary = s.dictionary)
    (ho : t.openWords = s.openWords) : t.cut = s.cut := by
  rw [cut, cut, hd, ho]

theorem Ahead.openWords {s t : Session} (h : s.Ahead t) : t.openWords = s.openWords := by
  obtain ⟨sources, rfl, hd⟩ := h
  rw [openWords_eq, openWords_eq, hd]

theorem Ahead.undone {s t : Session} (h : s.Ahead t) : s.Undone t := by
  have ho := h.openWords
  obtain ⟨sources, rfl, -⟩ := h
  exact ⟨List.suffix_refl _, rfl, cut_congr rfl ho⟩

/-- Another definition in the place of the open one, for the same entry. -/
theorem openWords_setDefinition {s : Session} {source : Pending} {rest : List Pending}
    {d d' : Definition} (hs : s.sources = source :: rest) (hd : source.definition = some d)
    (hw : d'.word = d.word) :
    openWords { s with sources := { source with definition := some d' } :: rest } =
      s.openWords := by
  simp [openWords, hs, hd, hw]

end Session

namespace Action

open Session

variable {α β : Type}

/-! ## Small steps -/

theorem sheds_bind {p : Action α} {q : α → Action β} (hp : Sheds Undone p)
    (hq : ∀ a, Sheds Undone (q a)) : Sheds Undone (p >>= q) :=
  Sheds.bind (U := Undone) Undone.trans hp hq

theorem atomic_after {p : Action α} {q : α → Action β} (hp : Sheds Undone p)
    (hq : ∀ a, Atomic Undone (q a)) : Atomic Undone (p >>= q) :=
  Sheds.then_atomic (U := Undone) Undone.trans hp hq

/-- First what may fail is done, then what cannot. -/
theorem atomic_of {p : Action α} {q : α → Action β} (hp : Sheds Undone p)
    (hq : ∀ a, Unfailing (q a)) : Atomic Undone (p >>= q) :=
  hp.atomic.then_unfailing hq

theorem sheds_raise (cause : Cause) : Sheds Undone (raise cause : Action α) :=
  fun s => Undone.refl s

theorem sheds_operands {p : Operand α} (h : Sheds Shrunk p) : Sheds Undone (operands p) := by
  intro s
  have hs := h s.stack
  unfold operands
  cases hp : p s.stack with
  | ok a stack =>
    rw [hp] at hs
    exact ⟨hs, rfl, rfl⟩
  | error fault stack =>
    rw [hp] at hs
    exact ⟨hs, rfl, rfl⟩

theorem atomic_operands {p : Operand α} (h : Atomic Shrunk p) : Atomic Undone (operands p) := by
  intro s e t ht
  unfold operands at ht
  cases hp : p s.stack with
  | ok a stack =>
    rw [hp] at ht
    cases ht
  | error fault stack =>
    rw [hp] at ht
    cases ht
    exact ⟨h _ _ _ hp, rfl, rfl⟩

theorem unfailing_push (v : Value) : Unfailing (push v) :=
  fun s => ⟨(), { s with stack := v :: s.stack }, rfl⟩

theorem unfailing_print (text : String) : Unfailing (print text) :=
  Unfailing.modify _

theorem unfailing_define (e : Entry) : Unfailing (define e) :=
  fun _ => ⟨_, _, rfl⟩

theorem unfailing_setDefinition (d : Option Definition) : Unfailing (setDefinition d) :=
  Unfailing.modify _

theorem sheds_notify (e : Event) : Sheds Undone (notify e) :=
  fun _ => ⟨List.suffix_refl _, rfl, rfl⟩

theorem sheds_pushReturn (item : ReturnItem) : Sheds Undone (pushReturn item) := by
  intro s
  unfold pushReturn
  cases s.returns.push? item with
  | some returns => exact ⟨List.suffix_refl _, rfl, rfl⟩
  | none => exact Undone.refl s

theorem sheds_lookup (name : String) : Sheds Undone (lookup name) := by
  intro s
  unfold lookup
  cases s.dictionary.find? name with
  | none => exact Undone.refl s
  | some found => exact Undone.refl s

theorem sheds_nextToken? : Sheds Ahead nextToken? := by
  intro s
  unfold nextToken?
  cases hs : s.sources with
  | nil => exact Ahead.refl s
  | cons source rest =>
    dsimp only
    cases ht : source.nextToken? with
    | none => exact Ahead.refl s
    | some found =>
      refine ⟨_, rfl, ?_⟩
      rw [hs, List.map_cons, List.map_cons, Pending.definition_of_nextToken? ht]

theorem sheds_nextName_ahead : Sheds Ahead nextName := by
  have missing : Sheds Ahead (do raise (.missingName (← get).currentWord) : Action
      (Location × String)) := fun s => Ahead.refl s
  refine Sheds.bind (U := Ahead) Ahead.trans sheds_nextToken? fun found => ?_
  cases found with
  | none => exact missing
  | some token =>
    dsimp only
    cases token.name? with
    | none => exact missing
    | some name => exact Sheds.pure Ahead.refl _

theorem sheds_nextName : Sheds Undone nextName :=
  sheds_nextName_ahead.mono Ahead.undone

/-! ## Definitions -/

theorem sheds_currentDefinition : Sheds Undone currentDefinition := by
  intro s
  unfold currentDefinition
  cases s.definition? with
  | none => exact Undone.refl s
  | some d => exact Undone.refl s

theorem exists_definition {s : Session} (h : s.isCompiling = true) :
    ∃ d, s.definition? = some d :=
  Option.isSome_iff_exists.1 h

theorem definition?_eq_none {s : Session} (h : s.isCompiling = false) : s.definition? = none := by
  rwa [Session.isCompiling, Option.isSome_eq_false_iff, Option.isNone_iff_eq_none] at h

/-- Without an open definition there is nothing to edit. -/
theorem edit_of_none {s : Session} (h : s.definition? = none) (p : Definition.Edit α) :
    edit p s = .error (.script (s.error (.compileOnly s.currentWord))) s := by
  unfold edit
  rw [bind_apply]
  unfold currentDefinition
  rw [h]
  rfl

theorem definition?_eq_some {s : Session} {d : Definition} (h : s.definition? = some d) :
    ∃ source rest, s.sources = source :: rest ∧ source.definition = some d := by
  unfold Session.definition? at h
  cases hs : s.sources with
  | nil =>
    rw [hs] at h
    cases h
  | cons source rest =>
    rw [hs] at h
    exact ⟨source, rest, rfl, h⟩

/-- The open definition may be replaced by another one for the same entry. -/
theorem undone_setDefinition {s : Session} {d : Definition} (hd : s.definition? = some d)
    (d' : Definition) (hw : d'.word = d.word) :
    ∃ t, setDefinition (some d') s = .ok () t ∧ s.Undone t := by
  obtain ⟨source, rest, hs, hsd⟩ := definition?_eq_some hd
  refine ⟨_, rfl, ?_⟩
  simp only [hs]
  exact ⟨List.suffix_refl _, rfl, cut_congr rfl (openWords_setDefinition hs hsd hw)⟩

/-- An edit only changes the definition, and that goes when it fails. -/
theorem sheds_edit {p : Definition.Edit α}
    (hp : ∀ d, Definition.After (·.word = d.word) (p d)) : Sheds Undone (edit p) := by
  intro s
  cases hd : s.definition? with
  | none =>
    rw [edit_of_none hd]
    exact Undone.refl s
  | some d =>
    have hw := hp d
    unfold edit
    rw [bind_apply]
    unfold currentDefinition
    rw [hd]
    dsimp only
    cases hr : p d with
    | ok a d' =>
      rw [hr] at hw
      obtain ⟨t, ht, hu⟩ := undone_setDefinition hd _ hw
      dsimp only
      rw [bind_apply, ht]
      exact hu
    | error cause d' =>
      rw [hr] at hw
      obtain ⟨t, ht, hu⟩ := undone_setDefinition hd _ hw
      dsimp only
      rw [bind_apply, ht]
      exact hu

theorem sheds_compile (location : Option Location) (op : Op) :
    Sheds Undone (compile location op) :=
  sheds_bind (sheds_edit fun _ => rfl) fun _ => Sheds.pure Undone.refl ()

theorem sheds_control (w : ControlWord) : Sheds Undone w.run :=
  Sheds.view fun s => sheds_edit fun d => Definition.word_compileStep s.location d w

theorem sheds_finish : Sheds Undone (edit Definition.finish) := by
  refine sheds_edit fun d => ?_
  rw [Definition.finish_eq]
  split
  · rfl
  · split <;> rfl

theorem atomic_closeDefinition : Atomic Undone DefiningWord.closeDefinition := by
  refine atomic_after sheds_finish fun r => ?_
  cases r with
  | error b =>
    intro s e t h
    cases h
    exact Undone.refl s
  | ok code =>
    refine atomic_of sheds_currentDefinition fun d => ?_
    exact (unfailing_setDefinition none).bind fun _ => Unfailing.modify _

theorem define_eq (e : Entry) (s : Session) :
    define e s = .ok s.dictionary.size { s with dictionary := (s.dictionary.insert e).2 } := rfl

/-- A session with a name to be defined, and its definition opened in the first source. -/
def opening (x : Location × String) (s : Session) : Session :=
  let entry := { Entry.ofBody (some x.1) x.2 (.compiled #[]) with visible := false }
  { s with
    dictionary := (s.dictionary.insert entry).2
    sources := match s.sources with
      | source :: rest =>
        { source with definition := some (.opened s.dictionary.size entry.name x.1) } :: rest
      | [] => [] }

theorem currentSource_of_cons {s : Session} {source : Pending} {rest : List Pending}
    (hs : s.sources = source :: rest) : (discard currentSource : Action Unit) s = .ok () s := by
  show (currentSource >>= fun _ => pure ()) s = _
  rw [bind_apply]
  unfold currentSource
  rw [hs]
  rfl

/-- Looking for a name leaves a source, even if it is used up. -/
theorem sources_nextName {s t : Session} {x : Location × String} {source : Pending}
    {rest : List Pending} (hs : s.sources = source :: rest) (ht : nextName s = .ok x t) :
    ∃ source' rest', t.sources = source' :: rest' := by
  obtain ⟨sources, rfl, hd⟩ := sheds_nextName_ahead.of_ok ht
  rw [hs] at hd
  cases sources with
  | nil => cases hd
  | cons source' rest' => exact ⟨source', rest', rfl⟩

/-- A definition is opened as soon as its name is found, and nothing fails behind that. -/
theorem openDefinition_of_source {s : Session} {source : Pending} {rest : List Pending}
    (hc : s.isCompiling = false) (hs : s.sources = source :: rest) :
    DefiningWord.openDefinition s = match nextName s with
      | .ok x t => .ok () (opening x t)
      | .error e t => .error e t := by
  unfold DefiningWord.openDefinition
  rw [StackLang.get_bind]
  simp only [hc, Bool.false_eq_true, if_false]
  rw [bind_apply, currentSource_of_cons hs]
  dsimp only
  rw [bind_apply]
  cases hn : nextName s with
  | error e t => rfl
  | ok x t =>
    obtain ⟨source', rest', ht⟩ := sources_nextName hs hn
    have hsource (dictionary : Dictionary) :=
      currentSource_of_cons (s := { t with dictionary }) ht
    dsimp only
    rw [bind_apply, define_eq]
    dsimp only
    rw [bind_apply, hsource, opening, ht]
    simp only [setDefinition]
    rfl

/-- Inside of a definition no other one can be opened. -/
theorem openDefinition_of_compiling {s : Session} (hc : s.isCompiling = true) :
    DefiningWord.openDefinition s = .error (.script (s.error (.unmatched ":" ";"))) s := by
  unfold DefiningWord.openDefinition
  rw [StackLang.get_bind]
  simp only [hc, if_true]
  rfl

/-- Without a source there is no name to be found. -/
theorem openDefinition_of_nil {s : Session} (hs : s.sources = []) :
    DefiningWord.openDefinition s =
      .error (.script (s.error (.compileOnly s.currentWord))) s := by
  have hc : s.isCompiling = false := by simp [Session.isCompiling, Session.definition?, hs]
  have hsource : (discard currentSource : Action Unit) s =
      .error (.script (s.error (.compileOnly s.currentWord))) s := by
    show (currentSource >>= fun _ => pure ()) s = _
    rw [bind_apply]
    unfold currentSource
    rw [hs]
    rfl
  unfold DefiningWord.openDefinition
  rw [StackLang.get_bind]
  simp only [hc, Bool.false_eq_true, if_false]
  rw [bind_apply, hsource]

theorem atomic_openDefinition : Atomic Undone DefiningWord.openDefinition := by
  intro s e t h
  cases hc : s.isCompiling with
  | true =>
    rw [openDefinition_of_compiling hc] at h
    cases h
    exact Undone.refl s
  | false =>
    cases hs : s.sources with
    | nil =>
      rw [openDefinition_of_nil hs] at h
      cases h
      exact Undone.refl s
    | cons source rest =>
      have hn := sheds_nextName s
      rw [openDefinition_of_source hc hs] at h
      cases hr : nextName s with
      | ok x u =>
        rw [hr] at h
        cases h
      | error f u =>
        rw [hr] at h hn
        cases h
        exact hn

theorem atomic_makeImmediate : Atomic Undone DefiningWord.makeImmediate := by
  refine Atomic.view fun s => ?_
  split
  · exact (Unfailing.modify _).atomic
  · exact (sheds_raise _).atomic

theorem atomic_forgetWord : Atomic Undone DefiningWord.forgetWord := by
  refine atomic_after sheds_nextName fun x => atomic_after (sheds_lookup _) fun y => ?_
  dsimp only
  split
  · exact Atomic.view fun s => atomic_of (sheds_raise _) fun _ => Unfailing.modify _
  · exact (Unfailing.modify _).atomic

theorem atomic_allot (count : Nat) : Atomic Undone (allot count) := by
  intro s e t h
  unfold allot at h
  split at h
  · cases h
  · cases h
    exact Undone.refl s

theorem unfailing_defineValue (e : Entry) : Unfailing (discard (define e) : Action Unit) :=
  (unfailing_define e).bind fun _ => Unfailing.pure ()

theorem atomic_defining (w : DefiningWord) : Atomic Undone w.run := by
  cases w with
  | colon => exact atomic_openDefinition
  | semicolon => exact atomic_closeDefinition
  | constant =>
    refine atomic_after (sheds_operands (Operand.sheds_require 1)) fun _ => ?_
    refine atomic_after sheds_nextName fun x => ?_
    exact atomic_of (sheds_operands Operand.sheds_pop) fun v => unfailing_defineValue _
  | «variable» =>
    refine atomic_after sheds_nextName fun x => ?_
    exact (atomic_allot 1).then_unfailing fun address => unfailing_defineValue _
  | immediate => exact atomic_makeImmediate
  | forget => exact atomic_forgetWord
  | reset => exact (Unfailing.modify _).atomic

/-! ## Memory and the return stack -/

theorem sheds_fetchCell (address : UInt64) : Sheds Undone (MemoryWord.fetchCell address) := by
  intro s
  unfold MemoryWord.fetchCell
  cases s.cells.fetch? address.toNat with
  | none => exact Undone.refl s
  | some v => exact Undone.refl s

theorem atomic_storeCell (address : UInt64) (v : Value) :
    Atomic Undone (MemoryWord.storeCell address v) := by
  intro s e t h
  unfold MemoryWord.storeCell at h
  split at h
  · cases h
  · cases h
    exact Undone.refl s

theorem atomic_memory (w : MemoryWord) : Atomic Undone w.run := by
  cases w with
  | fetch =>
    refine atomic_after (sheds_operands Operand.sheds_popAddress) fun address => ?_
    exact atomic_of (sheds_fetchCell address) fun v => unfailing_push v
  | store =>
    exact atomic_after (sheds_operands (Operand.sheds_two Operand.sheds_popAddress
      Operand.sheds_pop)) fun x => atomic_storeCell x.1 x.2
  | addTo =>
    refine atomic_after (sheds_operands (Operand.sheds_two Operand.sheds_popAddress
      Operand.sheds_popNumber)) fun x => ?_
    refine atomic_after (sheds_fetchCell x.1) fun current => ?_
    exact atomic_after (sheds_operands (Operand.sheds_expect _ _ _)) fun n => atomic_storeCell _ _
  | cells => exact atomic_of (sheds_operands Operand.sheds_popInt) fun n => unfailing_push _
  | allot =>
    refine atomic_after (sheds_operands ?_) fun n =>
      (atomic_allot n).then_unfailing fun _ => Unfailing.pure ()
    refine Operand.sheds_bind Operand.sheds_popInt fun n => ?_
    split
    · exact Operand.sheds_bind (Operand.sheds_throw _) fun _ => Operand.sheds_pure _
    · exact Operand.sheds_pure _
  | here => exact Atomic.view fun s => (unfailing_push _).atomic

theorem atomic_returns (w : ReturnWord) : Atomic Undone w.run := by
  have missing : Atomic Undone (ReturnWord.noValue : Action Unit) :=
    (sheds_operands (Operand.sheds_throw _)).atomic
  cases w with
  | toReturn =>
    exact atomic_after (sheds_operands Operand.sheds_pop) fun v => (sheds_pushReturn _).atomic
  | fromReturn =>
    refine Atomic.view fun s => ?_
    split
    · exact ((Unfailing.modify _).bind fun _ => unfailing_push _).atomic
    · exact missing
  | copyReturn =>
    refine Atomic.view fun s => ?_
    split
    · exact (unfailing_push _).atomic
    · exact missing

theorem atomic_output (w : OutputWord) : Atomic Undone w.run := by
  cases w with
  | print => exact atomic_of (sheds_operands Operand.sheds_pop) fun v => unfailing_print _
  | printStack | words => exact Atomic.view fun s => (unfailing_print _).atomic
  | newLine | space => exact (unfailing_print _).atomic
  | spaces => exact atomic_of (sheds_operands Operand.sheds_popInt) fun n => unfailing_print _
  | emit =>
    refine atomic_after (sheds_operands Operand.sheds_pop) fun v => ?_
    split
    · exact (unfailing_print _).atomic
    · exact (sheds_operands (Operand.sheds_throw _)).atomic
  | type =>
    exact atomic_of (sheds_operands (Operand.sheds_two Operand.sheds_popInt
      Operand.sheds_popString)) fun x => unfailing_print _
  | see =>
    refine atomic_after sheds_nextName fun x => atomic_after (sheds_lookup _) fun y => ?_
    exact Atomic.view fun s => (unfailing_print _).atomic

/-- A built-in word that fails has lost operands, and changed nothing else that an error does not
drop. -/
theorem atomic_builtin (w : Builtin) : Atomic Undone w.run := by
  cases w with
  | stack w => exact atomic_operands (Operand.atomic_stackWord w)
  | returns w => exact atomic_returns w
  | math w => exact atomic_operands (Operand.atomic_mathWord w)
  | memory w => exact atomic_memory w
  | defining w => exact atomic_defining w
  | control w => exact (sheds_control w).atomic
  | output w => exact atomic_output w

end Action

end StackLang
