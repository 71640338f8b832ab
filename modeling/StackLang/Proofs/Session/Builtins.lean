import StackLang.Proofs.Session.Consistent

/-!
# Built-in words keep a session valid

Values and tokens come and go without touching the invariant.  What is left are the words that
change the dictionary and those that build a definition.

* `triple_defining`, `triple_control`: these words keep a session valid.
* `triple_builtin`: so do all built-in words.
-/

namespace StackLang

namespace Session

open StackLang.Action

variable {α : Type} {φ : Option CallFrame → Prop}

theorem triple_currentSource :
    Triple (Valid φ) (discard currentSource) (fun _ => Valid φ) SoundWords := by
  refine Triple.discard fun s hs => ?_
  unfold currentSource
  cases s.sources with
  | nil => exact hs.entries
  | cons source rest => exact hs

theorem triple_currentDefinition :
    Triple (Valid φ) currentDefinition (fun d s => s.Valid φ ∧ s.definition? = some d)
      SoundWords := by
  intro s hs
  unfold currentDefinition
  cases hd : s.definition? with
  | none => exact hs.entries
  | some d => exact ⟨hs, hd⟩

/-- A definition may be put in its place that can be closed, too. -/
theorem triple_setDefinition {new : Option Definition} {P : Session → Prop}
    {E : Fault → Session → Prop}
    (hP : ∀ s, P s → s.Valid φ ∧ ∀ d, new = some d → d.Sound ∧
      ∀ e, s.dictionary.get? d.word = some e → e.isBuiltin = false) :
    Triple P (setDefinition new) (fun _ => Valid φ) E := by
  refine Triple.modify fun s hs => ?_
  obtain ⟨hv, hd⟩ := hP s hs
  cases hsrc : s.sources with
  | nil => exact hv
  | cons source rest => exact ⟨hv.setSource hsrc hd, hv.running⟩

/-- An edit that keeps a definition sound and its entry, and whose results have `Φ`. -/
theorem triple_edit {p : Definition.Edit α} {Φ : α → Prop}
    (hp : ∀ d, d.Sound → match p d with
      | .ok a d' => d'.Sound ∧ d'.word = d.word ∧ Φ a
      | .error _ d' => d'.Sound ∧ d'.word = d.word) :
    Triple (Valid φ) (edit p) (fun a s => s.Valid φ ∧ Φ a) SoundWords := by
  refine triple_currentDefinition.bind fun d => ?_
  have set (d' : Definition) (hs' : d'.Sound) (hw : d'.word = d.word) :
      Triple (fun s => s.Valid φ ∧ s.definition? = some d) (setDefinition (some d'))
        (fun _ => Valid φ) SoundWords :=
    triple_setDefinition fun s ⟨hv, hd⟩ => ⟨hv, fun x hx => by
      cases hx
      exact ⟨hs', fun e he => hv.reserved d e hd (hw ▸ he)⟩⟩
  refine Triple.of_fact (φ := d.Sound) (fun s hs => hs.1.definition d hs.2) fun hd => ?_
  have hr := hp d hd
  cases he : p d with
  | ok a d' =>
    rw [he] at hr
    exact (set d' hr.1 hr.2.1).bind fun _ => Triple.pure fun t ht => ⟨ht, hr.2.2⟩
  | error cause d' =>
    rw [he] at hr
    exact (set d' hr.1 hr.2).bind fun _ => triple_raise fun t ht => ht.entries

theorem triple_control (w : ControlWord) :
    Triple (Valid φ) w.run (fun _ => Valid φ) SoundWords := by
  refine Triple.view fun s => ?_
  refine (triple_edit (Φ := fun _ => True) fun d hd => ?_).mono (fun _ h => h)
    fun _ _ h => h.1
  have hs := Definition.sound_compileStep hd s.location w
  have hw := Definition.word_compileStep s.location d w
  cases hr : w.compileStep s.location d with
  | ok a d' =>
    rw [hr] at hs hw
    exact ⟨hs, hw, trivial⟩
  | error cause d' =>
    rw [hr] at hs hw
    exact ⟨hs, hw⟩

/-! ## Words that change the dictionary -/

/-- The session with another dictionary whose entries are sound, and with no built-in word where
there was none. -/
theorem Valid.setDictionary {s : Session} (h : s.Valid φ) {d : Dictionary} (hd : d.Sound)
    (hr : ∀ i, (∀ e, s.dictionary.get? i = some e → e.isBuiltin = false) →
      ∀ e, d.get? i = some e → e.isBuiltin = false) : Valid φ { s with dictionary := d } :=
  ⟨⟨hd, h.definition, fun x e hx => hr x.word (fun y => h.reserved x y hx) e, h.queued, h.linked⟩,
    h.running⟩

theorem triple_define {e : Entry} (he : e.Sound) (hb : e.isBuiltin = false) :
    Triple (Valid φ) (define e) (fun index s => s.Valid φ ∧
      ∀ x, s.dictionary.get? index = some x → x.isBuiltin = false) SoundWords := by
  intro s hs
  have fresh (i : Nat) (h : ∀ x, s.dictionary.get? i = some x → x.isBuiltin = false) (x : Entry)
      (hx : (s.dictionary.insert e).2.get? i = some x) : x.isBuiltin = false := by
    rcases Dictionary.get?_insert hx with hx | rfl
    · exact h x hx
    · exact hb
  refine ⟨hs.setDictionary (hs.entries.insert he) fresh, fresh s.dictionary.size fun x hx => ?_⟩
  simp [Dictionary.get?, Dictionary.size] at hx

/-- The code of a word that pushes a value. -/
theorem finished_value (location : Location) (v : Value) :
    Code.Finished #[⟨some location, .push v⟩, ⟨none, .exit⟩] where
  inside := by
    intro i x t hx ht
    match i with
    | 0 | 1 => cases hx; cases ht
    | i + 2 => simp at hx
  last := ⟨none, rfl⟩

theorem sound_valueEntry (location : Location) (name : String) (v : Value) (signature : String)
    (origin : Origin) : (DefiningWord.valueEntry location name v signature origin).Sound where
  visible := fun code _ hc => by
    cases hc
    exact finished_value location v
  hidden := fun h => by cases h
  role := fun w hw => by cases hw

theorem triple_defineValue (location : Location) (name : String) (v : Value) (signature : String)
    (origin : Origin) :
    Triple (Valid φ) (discard (define (DefiningWord.valueEntry location name v signature origin)))
      (fun _ => Valid φ) SoundWords :=
  Triple.discard ((triple_define (sound_valueEntry ..) rfl).mono (fun _ h => h)
    fun _ _ h => h.1)

/-- The entry of a word that is yet to be built. -/
theorem sound_reserved (location : Location) (name : String) :
    Entry.Sound { Entry.ofBody (some location) name (.compiled #[]) with visible := false } where
  visible := fun _ h => by cases h
  hidden := fun _ => rfl
  role := fun w hw => by cases hw

theorem triple_openDefinition :
    Triple (Valid φ) DefiningWord.openDefinition (fun _ => Valid φ) SoundWords := by
  refine Triple.view fun s => ?_
  dsimp only
  split
  · exact triple_raise_bind fun _ h => h.entries
  · refine triple_currentSource.bind fun _ => (insensitive_valid φ).triple_nextName.bind fun x => ?_
    refine (triple_define (sound_reserved x.1 x.2) rfl).bind fun index => ?_
    refine Triple.bind (Q := fun _ s => s.Valid φ ∧
      ∀ x, s.dictionary.get? index = some x → x.isBuiltin = false) (Triple.discard fun s hs => ?_)
      fun _ => triple_setDefinition fun s hs => ⟨hs.1, fun d hd => ?_⟩
    · unfold currentSource
      cases s.sources with
      | nil => exact hs.1.entries
      | cons source rest => exact hs
    · cases hd
      exact ⟨Definition.sound_opened .., hs.2⟩

theorem triple_closeDefinition :
    Triple (Valid φ) DefiningWord.closeDefinition (fun _ => Valid φ) SoundWords := by
  refine (triple_edit (Φ := fun r => ∃ code, r = .ok code ∧ code.Finished) fun d hd => ?_).bind
    fun r => ?_
  · rcases Definition.finish_sound hd with ⟨c, hc⟩ | ⟨code, hf, he, hc⟩
    · rw [hc]
      exact ⟨hd, rfl⟩
    · rw [hc]
      exact ⟨he, rfl, code, rfl, hf⟩
  · intro s ⟨hv, code, hr, hf⟩
    subst hr
    refine (triple_currentDefinition.bind fun d => ?_) s hv
    refine (triple_setDefinition fun s h => ⟨h.1, fun _ h => by cases h⟩).bind fun _ => ?_
    refine Triple.modify fun s hs => hs.setDictionary (hs.entries.modify fun e he hs => ?_) ?_
    · exact ⟨fun c _ hc => (Body.compiled.inj hc) ▸ hf, fun h => (by cases h),
        fun w hw => (by cases hw)⟩
    · intro i hi x hx
      rcases Dictionary.get?_modify hx with hx | ⟨e, rfl, he, rfl⟩
      · exact hi x hx
      · rfl

/-- The newest word that is not built in is none of the built-in words. -/
theorem isBuiltin_of_latestUserWord? {d : Dictionary} {index : Nat} {e : Entry}
    (h : d.latestUserWord? = some index) (he : d.get? index = some e) : e.isBuiltin = false := by
  obtain ⟨⟨i, x⟩, hx, rfl⟩ := Option.map_eq_some_iff.1 h
  obtain ⟨-, hg, hp, -⟩ := Dictionary.lastBelow_eq_some_iff.1 hx
  rw [hg] at he
  cases he
  simp only [Bool.and_eq_true, Bool.not_eq_true'] at hp
  exact hp.2

theorem triple_makeImmediate :
    Triple (Valid φ) DefiningWord.makeImmediate (fun _ => Valid φ) SoundWords := by
  refine Triple.get_bind fun s hs => ?_
  split
  · rename_i index hi
    have user : ∀ e, s.dictionary.get? index = some e → e.isBuiltin = false := by
      intro e he
      rcases Option.or_eq_some_iff.1 hi with hw | ⟨-, hl⟩
      · obtain ⟨d, hd, rfl⟩ := Option.map_eq_some_iff.1 hw
        exact hs.reserved d e hd he
      · exact isBuiltin_of_latestUserWord? hl he
    refine Triple.modify fun t ht => ?_
    subst ht
    refine hs.setDictionary (hs.entries.modify fun e he hs => ?_) fun i hi x hx => ?_
    · refine ⟨hs.visible, hs.hidden, fun w hw => ?_⟩
      have := user e he
      rw [Entry.isBuiltin, show e.body = .builtin w from hw] at this
      cases this
    · rcases Dictionary.get?_modify hx with hx | ⟨e, rfl, he, rfl⟩
      · exact hi x hx
      · exact hi e he
  · exact triple_raise fun t ht => ht ▸ hs.entries

theorem triple_forgetWord :
    Triple (Valid φ) DefiningWord.forgetWord (fun _ => Valid φ) SoundWords := by
  refine (insensitive_valid φ).triple_nextName.bind fun x => ?_
  refine ((insensitive_valid φ).triple_lookup x.2).bind fun y => ?_
  dsimp only
  split
  · exact Triple.view fun s => triple_raise_bind fun _ h => h.entries
  · exact Triple.modify fun s hs => hs.setDictionary (hs.entries.forgetBackTo _)
      fun _ hi x hx => hi x (Dictionary.get?_forgetBackTo hx)

theorem triple_reset {E : Fault → Session → Prop} :
    Triple (Valid φ) (modify Session.resetDefinitions) (fun _ => Valid φ) E :=
  Triple.modify fun s hs =>
    have hstack : Valid φ { s with stack := [], cells := s.cells.truncate s.cellMark } :=
      ⟨⟨hs.entries, hs.definition, hs.reserved, hs.queued, hs.linked⟩, hs.running⟩
    hstack.setDictionary (hs.entries.forgetBackTo _)
      fun _ hi x hx => hi x (Dictionary.get?_forgetBackTo hx)

theorem triple_defining (w : DefiningWord) :
    Triple (Valid φ) w.run (fun _ => Valid φ) SoundWords := by
  cases w with
  | colon => exact triple_openDefinition
  | semicolon => exact triple_closeDefinition
  | constant =>
    refine ((insensitive_valid φ).triple_operands _).bind fun _ => ?_
    refine (insensitive_valid φ).triple_nextName.bind fun x => ?_
    exact ((insensitive_valid φ).triple_operands _).bind fun v => triple_defineValue _ _ _ _ _
  | «variable» =>
    refine (insensitive_valid φ).triple_nextName.bind fun x => ?_
    exact ((insensitive_valid φ).triple_allot 1).bind fun address => triple_defineValue _ _ _ _ _
  | immediate => exact triple_makeImmediate
  | forget => exact triple_forgetWord
  | reset => exact triple_reset

/-- No built-in word breaks a rule of the machine in a valid session, and the session stays
valid. -/
theorem triple_builtin (w : Builtin) : Triple (Valid φ) w.run (fun _ => Valid φ) SoundWords :=
  (insensitive_valid φ).triple_run triple_defining triple_control w

end Session

end StackLang
