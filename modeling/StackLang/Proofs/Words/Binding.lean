import StackLang.Proofs.Token.Bounded
import StackLang.Proofs.Words.Moves

/-!
# What a call is bound to

Compiled code calls a word by its index.  As long as the word is there, the call runs the definition
that it was compiled for; when the word is gone the call fails.  It can come to run another word
only if its index is given out again, and that happens when a word is defined right where the
dictionary ends and something still in use calls that index.

* `Session.Names`: an index that something in use calls.
* `Session.Reuses`: a move gives out such an index again.
* `bound_iff_no_reuse`: calls stay bound exactly in the runs without such a move.
-/

namespace StackLang

/-- The entry has become nothing else: a visible one has the same code, and one that is still being
built may have got its code. -/
structure Entry.SameWord (e e' : Entry) : Prop where
  name : e'.name = e.name
  location : e'.location = e.location
  code : e.visible = true → e'.visible = true ∧ e'.body = e.body ∧ e'.origin = e.origin

theorem Entry.SameWord.refl (e : Entry) : e.SameWord e :=
  ⟨rfl, rfl, fun h => ⟨h, rfl, rfl⟩⟩

theorem Entry.SameWord.trans {e e' e'' : Entry} (h : e.SameWord e') (h' : e'.SameWord e'') :
    e.SameWord e'' := by
  refine ⟨h'.name.trans h.name, h'.location.trans h.location, fun hv => ?_⟩
  obtain ⟨hv', hb, ho⟩ := h.code hv
  obtain ⟨hv'', hb', ho'⟩ := h'.code hv'
  exact ⟨hv'', hb'.trans hb, ho'.trans ho⟩

namespace Session

open StackLang.Action

namespace Outline

/-- Something in use calls the index: the code of an entry, a word that is running, or the
definition that is being built; or the index is reserved for that definition. -/
inductive Names (o : Outline) (i : Nat) : Prop
  | entry {word : Nat} {e : Entry} {code : Code} (he : o.dictionary.get? word = some e)
    (hb : e.body = .compiled code) (hc : code.Calls word i)
  | running {word : Nat} {code : Code} (hr : (word, code) ∈ o.running) (hc : code.Calls word i)
  | definition {word : Nat} {code : Code} (hd : o.definition = some (word, code))
    (hc : i = word ∨ code.Calls word i)

/-- The definition that is being built has a hidden entry, if its entry is still there. -/
def Reserved (o : Outline) : Prop :=
  ∀ index code e, o.definition = some (index, code) → o.dictionary.get? index = some e →
    e.visible = false

/-- The index is that of a word that the name stands for, or of the definition that is being
built. -/
def Resolves (name? : Option String) (o : Outline) (i : Nat) (e : Entry) : Prop :=
  o.dictionary.get? i = some e ∧
    ((∃ name, name? = some name ∧ o.dictionary.find? name = some (i, e)) ∨
      ∃ code, o.definition = some (i, code))

variable {o o' : Outline} {i : Nat} {b : Option (Builtin × Option String)} {name? : Option String}

/-! ## What is named -/

theorem not_calls_nil {word : Nat} : ¬ Code.Calls #[] word i := by
  rintro ⟨x, hx, -⟩
  simp at hx

theorem not_calls_value {word : Nat} {location : Option Location} {v : Value} :
    ¬ Code.Calls #[⟨location, .push v⟩, ⟨none, .exit⟩] word i := by
  rintro ⟨x, hx, hc⟩
  simp only [List.mem_toArray, List.mem_cons, List.not_mem_nil, or_false] at hx
  rcases hx with rfl | rfl <;> cases hc

/-- Entries that call what was named before name nothing new. -/
theorem names_of_dictionary {d : Dictionary} {here : Nat}
    (hd : ∀ word e code, d.get? word = some e → e.body = .compiled code → code.Calls word i →
      o.Names i) (h : Names { o with dictionary := d, here } i) : o.Names i := by
  cases h with
  | entry h hb hc => exact hd _ _ _ h hb hc
  | running h hc => exact .running h hc
  | definition h hc => exact .definition h hc

theorem names_of_forgetBackTo {mark word : Nat} {e : Entry} {code : Code}
    (h : (o.dictionary.forgetBackTo mark).get? word = some e) (hb : e.body = .compiled code)
    (hc : code.Calls word i) : o.Names i :=
  .entry (Dictionary.get?_forgetBackTo h) hb hc

/-- A new entry that calls nothing names nothing. -/
theorem names_of_insert {x : Entry}
    (hx : ∀ word code, x.body = .compiled code → ¬ code.Calls word i)
    {word : Nat} {e : Entry} {code : Code} (h : (o.dictionary.insert x).2.get? word = some e)
    (hb : e.body = .compiled code) (hc : code.Calls word i) : o.Names i := by
  rcases Dictionary.get?_insert h with h | rfl
  · exact .entry h hb hc
  · exact (hx word code hb hc).elim

/-- What is named behind a built-in word was named before, or it is the definition just opened. -/
theorem names_of_revision {next? : Option String} {w : Builtin} (h : Revision next? o w o')
    (hn : o'.Names i) : o.Names i ∨ ∃ e, o'.Resolves name? i e := by
  cases h with
  | keeps => exact .inl (names_of_dictionary (fun _ _ _ => .entry) hn)
  | opens location name =>
    cases hn with
    | entry he hb hc =>
      exact .inl (names_of_insert (fun word code hx => by cases hx; exact not_calls_nil) he hb hc)
    | running hr hc => exact .inl (.running hr hc)
    | definition hd hc =>
      cases hd
      obtain rfl := hc.resolve_right not_calls_nil
      exact .inr ⟨_, by rw [Dictionary.get?_insert_eq, if_pos rfl], .inr ⟨_, rfl⟩⟩
  | closes source hd =>
    refine .inl ?_
    cases hn with
    | entry he hb hc =>
      rcases Dictionary.get?_modify he with he | ⟨e, rfl, -, rfl⟩
      · exact .entry he hb hc
      · cases hb
        exact .definition hd (.inr (hc.of_push rfl))
    | running hr hc => exact .running hr hc
    | definition hd' => cases hd'
  | constant | «variable» =>
    refine .inl (names_of_dictionary (fun _ _ _ => names_of_insert fun word code hx => ?_) hn)
    cases hx
    exact not_calls_value
  | makesImmediate =>
    refine .inl (names_of_dictionary (fun word e code he hb hc => ?_) hn)
    rcases Dictionary.get?_modify he with he | ⟨x, -, hx, rfl⟩
    · exact .entry he hb hc
    · exact .entry hx hb hc
  | forgets | resets => exact .inl (names_of_dictionary (fun _ _ _ => names_of_forgetBackTo) hn)
  | builds hd hcode =>
    refine .inl ?_
    cases hn with
    | entry he hb hc => exact .entry he hb hc
    | running hr hc => exact .running hr hc
    | definition hd' hc =>
      cases hd'
      exact .definition hd (hc.elim .inl (hcode i))

/-- What is named behind an operation was named before, or it has just been resolved. -/
theorem names_of_turn (h : Turn b name? o o') (hn : o'.Names i) :
    o.Names i ∨ ∃ e, o'.Resolves name? i e := by
  cases b with
  | some found => exact names_of_revision h hn
  | none =>
    cases (h : Passage _ o o') with
    | stays => exact .inl hn
    | compiles hd hcode =>
      cases hn with
      | entry he hb hc => exact .inl (.entry he hb hc)
      | running hr hc => exact .inl (.running hr hc)
      | definition hd' hc =>
        cases hd'
        rcases hc with rfl | hc
        · exact .inl (.definition hd (.inl rfl))
        · rcases hcode i hc with hc | ⟨name, e, hname, hf⟩
          · exact .inl (.definition hd (.inr hc))
          · exact .inr ⟨e, (Dictionary.find?_eq_some_iff.1 hf).2.1, .inl ⟨name, hname, hf⟩⟩
    | enters he hb =>
      cases hn with
      | entry he hb hc => exact .inl (.entry he hb hc)
      | running hr hc =>
        rcases List.mem_cons.1 hr with hr | hr
        · cases hr
          exact .inl (.entry he hb hc)
        · exact .inl (.running hr hc)
      | definition hd hc => exact .inl (.definition hd hc)
    | leaves hrun =>
      cases hn with
      | entry he hb hc => exact .inl (.entry he hb hc)
      | running hr hc => exact .inl (.running (hrun ▸ List.mem_cons_of_mem _ hr) hc)
      | definition hd hc => exact .inl (.definition hd hc)

/-! ## How the dictionary grows -/

/-- The dictionary grows by one entry at most, and what was named still is when it does. -/
theorem size_of_turn (h : Turn b name? o o') :
    o'.dictionary.size ≤ o.dictionary.size ∨
      (∃ e, o'.dictionary = (o.dictionary.insert e).2) ∧ ∀ i, o.Names i → o'.Names i := by
  have keep {e : Entry} {here : Nat} {definition : Option (Nat × Code)}
      (hd : ∀ word code, o.definition = some (word, code) → definition = some (word, code))
      (i : Nat) (hn : o.Names i) :
      Names { o with dictionary := (o.dictionary.insert e).2, here, definition } i := by
    cases hn with
    | @entry word e' code he hb hc =>
      have he' : (o.dictionary.insert e).2.get? word = some e' := by
        rw [Dictionary.get?_insert_eq, if_neg (Nat.ne_of_lt (Dictionary.lt_size_of_get? he))]
        exact he
      exact .entry he' hb hc
    | running hr hc => exact .running hr hc
    | definition h hc => exact .definition (hd _ _ h) hc
  cases b with
  | none => cases (h : Passage _ o o') <;> exact .inl (Nat.le_refl _)
  | some found =>
    obtain ⟨w, next?⟩ := found
    cases (h : Revision next? o w o') with
    | keeps | builds => exact .inl (Nat.le_refl _)
    | closes | makesImmediate => exact .inl (Nat.le_of_eq (Dictionary.size_modify ..))
    | forgets | resets =>
      refine .inl ?_
      simp only [Outline.restored, Dictionary.size_forgetBackTo]
      exact Nat.min_le_right _ _
    | opens location name hd =>
      exact .inr ⟨⟨_, rfl⟩, keep fun word code h => by rw [hd] at h; cases h⟩
    | constant | «variable» => exact .inr ⟨⟨_, rfl⟩, keep fun _ _ h => h⟩

/-! ## What becomes of an entry -/

/-- An entry is dropped, or it stays the same word. -/
theorem entry_of_turn (ho : o.Reserved) (h : Turn b name? o o')
    {e : Entry} (he : o.dictionary.get? i = some e) :
    o'.dictionary.get? i = none ∨ ∃ e', o'.dictionary.get? i = some e' ∧ e.SameWord e' := by
  have same {d : Dictionary} (hd : d.get? i = o.dictionary.get? i) :
      d.get? i = none ∨ ∃ e', d.get? i = some e' ∧ e.SameWord e' :=
    .inr ⟨e, hd.trans he, .refl e⟩
  have cut (mark : Nat) : (o.dictionary.forgetBackTo mark).get? i = none ∨
      ∃ e', (o.dictionary.forgetBackTo mark).get? i = some e' ∧ e.SameWord e' := by
    rw [Dictionary.get?_forgetBackTo_eq]
    split
    · exact .inr ⟨e, he, .refl e⟩
    · exact .inl rfl
  have insert (x : Entry) : (o.dictionary.insert x).2.get? i = o.dictionary.get? i := by
    rw [Dictionary.get?_insert_eq, if_neg (Nat.ne_of_lt (Dictionary.lt_size_of_get? he))]
  cases b with
  | none => cases (h : Passage _ o o') <;> exact same rfl
  | some found =>
    obtain ⟨w, next?⟩ := found
    cases (h : Revision next? o w o') with
    | keeps | builds => exact same rfl
    | opens | constant | «variable» => exact same (insert _)
    | forgets | resets => exact cut _
    | @closes index code source hd =>
      rw [Dictionary.get?_modify_eq, he]
      split
      · rename_i hi
        refine .inr ⟨_, rfl, rfl, rfl, fun hv => ?_⟩
        rw [ho index code e hd (hi ▸ he)] at hv
        cases hv
      · exact .inr ⟨e, rfl, .refl e⟩
    | makesImmediate =>
      rw [Dictionary.get?_modify_eq, he]
      split
      · exact .inr ⟨_, rfl, rfl, rfl, fun hv => ⟨hv, rfl, rfl⟩⟩
      · exact .inr ⟨e, rfl, .refl e⟩

/-- The definition keeps its hidden entry, unless that was dropped and its index is given out
again. -/
theorem Reserved.of_turn (ho : o.Reserved) (h : Turn b name? o o')
    (hnew : o.dictionary.size < o'.dictionary.size → ¬ o.Names o.dictionary.size) :
    o'.Reserved := by
  intro index code e hd he
  have insert {x : Entry} (hnn : ¬ o.Names o.dictionary.size)
      (hd : o.definition = some (index, code))
      (he : (o.dictionary.insert x).2.get? index = some e) : e.visible = false := by
    rw [Dictionary.get?_insert_eq] at he
    split at he
    · rename_i hi
      exact (hnn (.definition hd (.inl hi.symm))).elim
    · exact ho index code e hd he
  cases b with
  | none =>
    cases (h : Passage _ o o') with
    | compiles hd' =>
      cases hd
      exact ho _ _ e hd' he
    | stays | enters | leaves => exact ho index code e hd he
  | some found =>
    obtain ⟨w, next?⟩ := found
    cases (h : Revision next? o w o') with
    | keeps => exact ho index code e hd he
    | builds hd' =>
      cases hd
      exact ho _ _ e hd' he
    | opens location name =>
      cases hd
      rw [Dictionary.get?_insert_eq, if_pos rfl] at he
      exact (congrArg Entry.visible (Option.some.inj he)).symm
    | closes => cases hd
    | constant | «variable» => exact insert (hnew (by simp)) hd he
    | makesImmediate =>
      rcases Dictionary.get?_modify he with he | ⟨x, -, hx, rfl⟩
      · exact ho index code e hd he
      · exact ho index code x hd hx
    | forgets | resets => exact ho index code e hd (Dictionary.get?_forgetBackTo he)

/-! ## Moves -/

variable {s t : Session} {m : Move}

/-- Nothing is new: entries at the end were dropped, and maybe what was in flight. -/
structure Trimmed (o o' : Outline) : Prop where
  dictionary : ∃ mark, o'.dictionary = o.dictionary.forgetBackTo mark
  definition : ∀ index code, o'.definition = some (index, code) → o.definition = some (index, code)
  running : ∀ f ∈ o'.running, f ∈ o.running

theorem Trimmed.of_kept (hd : o'.dictionary = o.dictionary)
    (h : ∀ index code, o'.definition = some (index, code) → o.definition = some (index, code))
    (hr : ∀ f ∈ o'.running, f ∈ o.running) : o.Trimmed o' :=
  ⟨⟨o.dictionary.size, hd.trans (Dictionary.forgetBackTo_of_le (Nat.le_refl _)).symm⟩, h, hr⟩

theorem trimmed_rolledBack (o : Outline) : o.Trimmed o.rolledBack := by
  cases hd : o.definition with
  | none => exact .of_kept (by simp [rolledBack, hd]) nofun nofun
  | some d => exact ⟨⟨d.1, by simp [rolledBack, hd]⟩, nofun, nofun⟩

/-- Only steps bring anything new. -/
theorem step_or_trimmed_of_changed (h : Changed s m t) :
    m = .step ∧ Turn s.nextBuiltin? s.compiledName? s.outline t.outline ∨
      s.outline.Trimmed t.outline := by
  cases h with
  | steps _ h => exact .inl ⟨rfl, h⟩
  | stays _ h => exact .inr (h ▸ .of_kept rfl (fun _ _ h => h) fun _ h => h)
  | fails _ h => exact .inr (h ▸ trimmed_rolledBack _)
  | marks => exact .inr (.of_kept rfl (fun _ _ h => h) fun _ h => h)
  | resets =>
    rw [outline_reset]
    exact .inr ⟨⟨_, rfl⟩, nofun, nofun⟩
  | restores =>
    rw [outline_resetDefinitions]
    exact .inr ⟨⟨_, rfl⟩, fun _ _ h => h, fun _ h => h⟩

theorem turn_or_trimmed_of_changed (h : Changed s m t) :
    Turn s.nextBuiltin? s.compiledName? s.outline t.outline ∨ s.outline.Trimmed t.outline :=
  (step_or_trimmed_of_changed h).imp_left And.right

theorem trimmed_of_changed (h : Changed s m t) (hm : m ≠ .step) : s.outline.Trimmed t.outline :=
  (step_or_trimmed_of_changed h).resolve_left fun h => hm h.1

theorem Trimmed.names (h : o.Trimmed o') (hn : o'.Names i) : o.Names i := by
  cases hn with
  | entry he hb hc =>
    obtain ⟨mark, hd⟩ := h.dictionary
    rw [hd] at he
    exact .entry (Dictionary.get?_forgetBackTo he) hb hc
  | running hr hc => exact .running (h.running _ hr) hc
  | definition hd hc => exact .definition (h.definition _ _ hd) hc

theorem names_of_changed (h : Changed s m t) (hn : t.outline.Names i) :
    s.outline.Names i ∨ ∃ e, t.outline.Resolves s.compiledName? i e :=
  (turn_or_trimmed_of_changed h).elim (names_of_turn · hn) fun h => .inl (h.names hn)

theorem size_of_changed (h : Changed s m t) :
    t.dictionary.size ≤ s.dictionary.size ∨
      (∃ e, t.dictionary = (s.dictionary.insert e).2) ∧
        ∀ i, s.outline.Names i → t.outline.Names i := by
  rcases turn_or_trimmed_of_changed h with h | h
  · exact size_of_turn h
  · obtain ⟨mark, hd⟩ := h.dictionary
    refine .inl ?_
    rw [show t.dictionary = s.dictionary.forgetBackTo mark from hd, Dictionary.size_forgetBackTo]
    exact Nat.min_le_right _ _

theorem entry_of_changed (hs : s.outline.Reserved) (h : Changed s m t) {e : Entry}
    (he : s.dictionary.get? i = some e) :
    t.dictionary.get? i = none ∨ ∃ e', t.dictionary.get? i = some e' ∧ e.SameWord e' := by
  rcases turn_or_trimmed_of_changed h with h | h
  · exact entry_of_turn hs h he
  · obtain ⟨mark, hd⟩ := h.dictionary
    rw [show t.dictionary = s.dictionary.forgetBackTo mark from hd, Dictionary.get?_forgetBackTo_eq]
    split
    · exact .inr ⟨e, he, .refl e⟩
    · exact .inl rfl

theorem Reserved.of_changed (hs : s.outline.Reserved) (h : Changed s m t)
    (hnew : s.dictionary.size < t.dictionary.size → ¬ s.outline.Names s.dictionary.size) :
    t.outline.Reserved := by
  rcases turn_or_trimmed_of_changed h with h | h
  · exact hs.of_turn h hnew
  · obtain ⟨mark, hd⟩ := h.dictionary
    intro index code e hdef he
    rw [hd] at he
    exact hs index code e (h.definition _ _ hdef) (Dictionary.get?_forgetBackTo he)

end Outline

variable {s t : Session} {i : Nat}

/-- Something in use calls the index. -/
abbrev Names (s : Session) (i : Nat) : Prop :=
  s.outline.Names i

/-- A new entry got an index that something in use calls. -/
def Reuses (s t : Session) : Prop :=
  s.dictionary.size < t.dictionary.size ∧ s.Names s.dictionary.size

/-- The moves lead from `s` to `t`, and something in use calls the index all along. -/
structure Holds (i : Nat) (during : List Move) (s t : Session) : Prop where
  run : play during s = .ok t
  names : ∀ u, Visits during s u → u.Names i

/-- One of the moves compiled a call of the index, which was that of the word that the name stood
for, and something in use has called the index since. -/
def Bound (i : Nat) (moves : List Move) (start t : Session) : Prop :=
  ∃ before m during v s e, moves = before ++ m :: during ∧ play before start = .ok v ∧
    remains (m.run v) = .ok s ∧ s.outline.Resolves v.compiledName? i e ∧ Holds i during s t

/-- From `s` to `t` the entry of `s` at the index stays the same word until it is gone, and then it
is gone for good. -/
structure Keeps (during : List Move) (i : Nat) (e : Entry) (s t : Session) : Prop where
  same : ∀ e', t.dictionary.get? i = some e' → e.SameWord e'
  gone : ∀ u, Visits during s u → u.dictionary.get? i = none → t.dictionary.get? i = none

theorem not_names_ofConfig (config : Config) : ¬ (ofConfig config).Names i := by
  have hbuiltin := builtins_induct
    (P := fun d => ∀ word e, d.get? word = some e → ∀ code, e.body ≠ .compiled code)
    (fun word e he => by simp [Dictionary.get?, Dictionary.empty] at he)
    fun d w hd word e he => by
      rcases Dictionary.get?_insert he with he | rfl
      · exact hd word e he
      · intro code h
        cases h
  intro h
  cases h with
  | entry he hb => exact hbuiltin _ _ he _ hb
  | running hr => cases hr
  | definition hd => cases hd

/-! ## The next call -/

/-- The running word has gone past its next instruction. -/
def pastNext (s : Session) : Session :=
  match s.frame with
  | none => s
  | some f => { s with
      frame := some { f with next := f.next + 1 }
      location := (f.code[f.next]?.bind (·.location)).or s.location }

theorem names_of_callee? (h : s.callee? = some i) : s.Names i := by
  obtain ⟨f, hf, h⟩ := Option.bind_eq_some_iff.1 h
  obtain ⟨x, hx, h⟩ := Option.bind_eq_some_iff.1 h
  have hr : (f.word, f.code) ∈ s.outline.running := by simp [outline, hf]
  exact .running hr ⟨x, Array.mem_of_getElem? hx, h⟩

theorem step_of_callee? (hc : s.cancelled = false) (h : s.callee? = some i) :
    step s = (call i >>= fun _ => dropUsedSources) s.pastNext := by
  obtain ⟨f, hf, h⟩ := Option.bind_eq_some_iff.1 h
  obtain ⟨x, hx, h⟩ := Option.bind_eq_some_iff.1 h
  rw [step_of_running hc, bind_apply, operation_of_frame hf, runInstruction_eq hx,
    runOp_of_callee? h, bind_apply]
  simp [pastNext, hf, hx]

@[simp] theorem dictionary_pastNext (s : Session) : s.pastNext.dictionary = s.dictionary := by
  unfold pastNext
  split <;> rfl

/-- A call of an index without an entry. -/
theorem step_of_get?_eq_none (hc : s.cancelled = false) (hi : s.callee? = some i)
    (he : s.dictionary.get? i = none) :
    step s = raise (.unknownWord ("#" ++ toString i) []) s.pastNext := by
  rw [step_of_callee? hc hi, bind_apply]
  unfold call
  rw [StackLang.get_bind, dictionary_pastNext, he]
  rfl

theorem step_of_get? {e : Entry} (hc : s.cancelled = false) (hi : s.callee? = some i)
    (he : s.dictionary.get? i = some e) :
    step s = (notify (.starting e.name e.signature) >>= fun _ =>
      (match e.body with
        | .builtin word => callBuiltin e.name word
        | .compiled code => callCompiled i e.name code) >>= fun _ => dropUsedSources)
      s.pastNext := by
  rw [step_of_callee? hc hi, bind_apply]
  unfold call
  rw [StackLang.get_bind, dictionary_pastNext, he]
  rfl

theorem frame_of_step {e : Entry} {code : Code} (hc : s.cancelled = false)
    (hi : s.callee? = some i) (he : s.dictionary.get? i = some e) (hb : e.body = .compiled code)
    (h : step s = .ok () t) : t.frame = some ⟨i, e.name, code, 0⟩ := by
  rw [step_of_get? hc hi he, hb] at h
  obtain ⟨_, u, -, h⟩ := exists_of_bind h
  obtain ⟨_, v, hv, h⟩ := exists_of_bind h
  obtain ⟨returns, -, rfl⟩ := exists_of_callCompiled hv
  cases h
  rfl

/-! ## Runs -/

section

variable {config : Config} {moves during : List Move} {m : Move} {u v : Session} {e : Entry}

theorem changed_of_passes (h : Passes moves (ofConfig config) m s t) : Changed s m t := by
  obtain ⟨-, -, -, -, hm⟩ := id h
  exact changed_of_move (h.before.valid (valid_ofConfig config nofun)) hm

theorem Holds.nil (h : s.Names i) : Holds i [] s s := by
  refine ⟨rfl, fun u hu => ?_⟩
  obtain ⟨before, after, hnil, hu⟩ := hu
  obtain ⟨rfl, rfl⟩ := List.append_eq_nil_iff.1 hnil.symm
  cases hu
  exact h

theorem Holds.snoc (h : Holds i during s t) (hm : remains (m.run t) = .ok u) (hu : u.Names i) :
    Holds i (during ++ [m]) s u := by
  refine ⟨?_, fun v hv => ?_⟩
  · rw [play_append_of_ok h.run, play_singleton, hm]
  · rcases visits_snoc h.run hm hv with hv | rfl
    · exact h.names v hv
    · exact hu

/-- Whatever something in use calls was bound when the call was compiled. -/
theorem bound_of_names (ht : play moves (ofConfig config) = .ok t) (hn : t.Names i) :
    Bound i moves (ofConfig config) t := by
  refine play_induct (P := fun moves t => ∀ i, t.Names i → Bound i moves (ofConfig config) t)
    (fun i h => (not_names_ofConfig config h).elim) (fun done m u v hu hm hP i hn => ?_) ht i hn
  have hc : Changed u m v :=
    changed_of_move (valid_play (valid_ofConfig config nofun) hu) hm
  rcases Outline.names_of_changed hc hn with hn' | ⟨e, hr⟩
  · obtain ⟨before, m', during, w, s, e, rfl, hw, hs, hr, hh⟩ := hP i hn'
    exact ⟨before, m', during ++ [m], w, s, e, by simp, hw, hs, hr, hh.snoc hm hn⟩
  · exact ⟨done, m, [], u, v, e, rfl, hu, hm, hr, .nil hn⟩

theorem reserved_of_visits
    (h : ∀ m s t, Passes moves (ofConfig config) m s t → ¬ s.Reuses t)
    (ht : Visits moves (ofConfig config) t) : t.outline.Reserved := by
  refine ht.induct (P := fun t => t.outline.Reserved) (fun index code e hd => by cases hd)
    fun m u v hp hu => ?_
  exact hu.of_changed (changed_of_passes hp) fun hsize hn => h m u v hp ⟨hsize, hn⟩

/-- An index without an entry gets none while something in use calls it. -/
theorem get?_eq_none_of_changed (h : Changed s m t) (hr : ¬ s.Reuses t) (hn : s.Names i)
    (hs : s.dictionary.get? i = none) : t.dictionary.get? i = none := by
  rw [Dictionary.get?_eq_none_iff] at hs ⊢
  rcases Outline.size_of_changed h with hsize | ⟨⟨e, hd⟩, -⟩
  · exact Nat.le_trans hsize hs
  · have hsize : t.dictionary.size = s.dictionary.size + 1 := by
      rw [hd, Dictionary.size_insert]
    have hi : i ≠ s.dictionary.size := fun hi => hr ⟨by omega, hi ▸ hn⟩
    omega

/-- Without a reuse, a call runs the word that it was compiled for until that is gone. -/
theorem keeps_of_holds {before after : List Move}
    (h : ∀ m s t, Passes (before ++ during ++ after) (ofConfig config) m s t → ¬ s.Reuses t)
    (hs : play before (ofConfig config) = .ok s) (hh : Holds i during s t)
    (he : s.dictionary.get? i = some e) : Keeps during i e s t := by
  have passes {m : Move} {u v : Session} (hp : Passes during s m u v) :
      Passes (before ++ during ++ after) (ofConfig config) m u v :=
    (hp.of_play hs).append after
  have gone {m : Move} {u v : Session} (hp : Passes during s m u v)
      (hu : u.dictionary.get? i = none) : v.dictionary.get? i = none :=
    get?_eq_none_of_changed (changed_of_passes (passes hp)) (h m u v (passes hp))
      (hh.names u hp.before) hu
  refine ⟨?_, fun u hu hnone => ?_⟩
  · refine (Visits.ending hh.run).induct
      (P := fun t => ∀ e', t.dictionary.get? i = some e' → e.SameWord e') (fun e' he' => ?_)
      fun m u v hp hu e'' he'' => ?_
    · obtain rfl := Option.some.inj (he.symm.trans he')
      exact .refl e
    · cases he' : u.dictionary.get? i with
      | none =>
        rw [gone hp he'] at he''
        cases he''
      | some e' =>
        have hr := reserved_of_visits h (passes hp).before
        rcases Outline.entry_of_changed hr (changed_of_passes (passes hp)) he' with hv | ⟨x, hv, hx⟩
        · rw [hv] at he''
          cases he''
        · obtain rfl := Option.some.inj (hv.symm.trans he'')
          exact (hu e' he').trans hx
  · obtain ⟨first, last, rfl, hu⟩ := hu
    have ht : play last u = .ok t := by
      rw [← hh.run, play_append_of_ok hu]
    refine (Visits.ending ht).induct (P := fun t => t.dictionary.get? i = none) hnone
      fun m v w hp hv => gone (hp.of_play hu) hv

/-- A reuse gives a call another word. -/
theorem not_reuses_of_keeps {before after : List Move} {m : Move}
    (h : ∀ before' during after' w i e, before ++ m :: after = before' ++ during ++ after' →
      play before' (ofConfig config) = .ok w → Holds i during w t →
      w.dictionary.get? i = some e → Keeps during i e w t)
    (hs : play before (ofConfig config) = .ok s) (hm : remains (m.run s) = .ok t) :
    ¬ s.Reuses t := by
  rintro ⟨hsize, hn⟩
  have hc : Changed s m t :=
    changed_of_move (valid_play (valid_ofConfig config nofun) hs) hm
  obtain ⟨-, ht⟩ := (Outline.size_of_changed hc).resolve_left (Nat.not_le_of_lt hsize)
  -- The call was bound to a word that is gone in `s`, and `t` has one there again.
  obtain ⟨before', m', during, v, w, e, rfl, hv, hw, hr, hh⟩ := bound_of_names hs hn
  have hbefore : play (before' ++ [m']) (ofConfig config) = .ok w := by
    rw [play_append_of_ok hv, play_singleton, hw]
  have hk := h (before' ++ [m']) (during ++ [m]) after w _ e (by simp) hbefore
    (hh.snoc hm (ht _ hn)) hr.1
  have hnone := hk.gone s ((Visits.ending hh.run).append [m])
    (Dictionary.get?_eq_none_iff.2 (Nat.le_refl _))
  exact absurd (Dictionary.get?_eq_none_iff.1 hnone) (Nat.not_le_of_lt hsize)

end

/-- In a run of a fresh session calls are bound once and for all exactly if no word is ever defined
where something in use still calls one: from then on that a call is compiled, its index has the word
that its name stood for, or has none and gets none.  A call of an index without an entry fails as an
unknown word, and any other call runs the entry.  Every sequence of requests is such a run. -/
theorem bound_iff_no_reuse (config : Config) (moves : List Move) :
    ((∀ m s t, Passes moves (ofConfig config) m s t → ¬ s.Reuses t) ↔
      ∀ before during after s t i e, moves = before ++ during ++ after →
        play before (ofConfig config) = .ok s → Holds i during s t →
        s.dictionary.get? i = some e → Keeps during i e s t) ∧
    (∀ t i, play moves (ofConfig config) = .ok t → t.Names i →
      Bound i moves (ofConfig config) t) ∧
    (∀ s i, s.cancelled = false → s.callee? = some i → s.Names i ∧
      (s.dictionary.get? i = none →
        step s = raise (.unknownWord ("#" ++ toString i) []) s.pastNext) ∧
      ∀ e, s.dictionary.get? i = some e →
        (∀ code t, e.body = .compiled code → step s = .ok () t →
          t.frame = some ⟨i, e.name, code, 0⟩) ∧
        ∀ w, e.body = .builtin w → step s = (do
          notify (.starting e.name e.signature)
          callBuiltin e.name w
          dropUsedSources) s.pastNext) ∧
    ∀ fuel requests, ∃ moves,
      play moves (ofConfig config) = perform fuel requests (ofConfig config) := by
  refine ⟨⟨fun h before during after s t i e hm hs hh he => ?_, fun h m s t hp hr => ?_⟩,
    fun t i ht hn => bound_of_names ht hn, fun s i hc hi => ⟨names_of_callee? hi, ?_⟩,
    fun fuel requests => exists_play_eq_perform fuel requests _⟩
  · subst hm
    exact keeps_of_holds h hs hh he
  · obtain ⟨before, after, rfl, hs, hm⟩ := hp
    exact not_reuses_of_keeps (fun before' during after' w i e => h before' during after' w t i e)
      hs hm hr
  · refine ⟨step_of_get?_eq_none hc hi, fun e he => ⟨fun code t => frame_of_step hc hi he,
      fun w hb => ?_⟩⟩
    rw [step_of_get? hc hi he, hb]

/-- The body of one entry, the name of another, and what lies on the stack. -/
def bodyNameStack (i j : Nat) (s : Session) : Option Body × Option String × DataStack :=
  ((s.dictionary.get? i).map (·.body), (s.dictionary.get? j).map (·.name), s.stack)

/-- `W` calls `Z`, which the immediate `MK` made inside of it.  `FORGET` drops `Z` but not `W`,
`OTHER` gets the index of `Z`, and `W` runs `OTHER`. -/
theorem perform_reused_index : ∃ s t code,
    perform 30 [.evaluate ": MK VARIABLE ; IMMEDIATE : W MK Z Z ;"] (ofConfig .standard) = .ok s ∧
      perform 30 [.evaluate "FORGET Z : OTHER 42 ; W"] s = .ok t ∧
      Code.Calls code 97 98 ∧
      bodyNameStack 97 98 s = (some (.compiled code), some "Z", []) ∧
      bodyNameStack 97 98 t = (some (.compiled code), some "OTHER", [.int 42]) := by
  let code : Code := #[⟨some ⟨inputPath, 1, 36⟩, .callWord 98⟩, ⟨none, .exit⟩]
  have hrun : (perform 30 [.evaluate ": MK VARIABLE ; IMMEDIATE : W MK Z Z ;"]
      (ofConfig .standard)).toOption.bind (fun s =>
        (perform 30 [.evaluate "FORGET Z : OTHER 42 ; W"] s).toOption.map fun t =>
          (bodyNameStack 97 98 s, bodyNameStack 97 98 t)) =
      some ((some (.compiled code), some "Z", []),
        (some (.compiled code), some "OTHER", [.int 42])) := by
    simp only [perform, Request.run, evaluate, processSource, enqueue]
    rw [Pending.ofSource_eq 50 (by decide), Pending.ofSource_eq 50 (by decide)]
    decide +kernel
  obtain ⟨s, hs, hrun⟩ := Option.bind_eq_some_iff.1 hrun
  obtain ⟨t, ht, hview⟩ := Option.map_eq_some_iff.1 hrun
  obtain ⟨hs', ht'⟩ := Prod.mk.inj hview
  exact ⟨s, t, code, eq_ok_of_toOption hs, eq_ok_of_toOption ht,
    ⟨_, Array.mem_of_getElem? (i := 0) rfl, rfl⟩, hs', ht'⟩

end Session

end StackLang
