import StackLang.Proofs.Words.Outline

/-!
# What built-in words do to the dictionary

Every built-in word that succeeds revises what the session knows of words in one of a few ways: most
leave it alone, a defining word appends an entry, `;` and `IMMEDIATE` change one, `FORGET` and
`RESET` cut the dictionary, and a control word changes the code of the definition.

* `revision_of_run`: what a built-in word that succeeds does.
-/

namespace StackLang

namespace Session

open StackLang.Action

variable {α : Type} {s t : Session} {source : Pending} {rest : List Pending}

/-! ## Sources and the open definition -/

/-- When tokens of the sources have been used up, the definition is still the same. -/
theorem outline_ahead {sources : List Pending}
    (h : sources.head?.bind (·.definition) = s.definition?) (stack : DataStack)
    (cells : CellStore) (dictionary : Dictionary) :
    outline { s with stack, cells, dictionary, sources } =
      { s.outline with dictionary, here := cells.here } := by
  unfold outline
  rw [show definition? { s with stack, cells, dictionary, sources } = s.definition? from h]

theorem exists_of_nextName {location : Location} {name : String}
    (h : nextName s = .ok (location, name) t) :
    nextName? s.sources = some name ∧ ∃ sources, t = { s with sources } ∧
      sources.head?.bind (·.definition) = s.definition? := by
  unfold nextName at h
  obtain ⟨found, u, hu, h⟩ := exists_of_bind h
  unfold nextToken? at hu
  split at hu
  · cases hu
    cases h
  · rename_i source rest hs
    split at hu
    · rename_i token behind ht
      cases hu
      unfold Pending.nextToken? at ht
      split at ht
      · cases ht
      · rename_i tokens htokens
        cases ht
        dsimp only at h
        cases hn : token.name? with
        | none =>
          rw [hn] at h
          cases h
        | some name =>
          rw [hn] at h
          cases h
          refine ⟨by simp [nextName?, hs, htokens, hn], _, rfl, ?_⟩
          rw [definition?_of_sources hs]
          rfl
    · cases hu
      cases h

theorem setDefinition_of_cons (hs : s.sources = source :: rest) (d : Option Definition) :
    setDefinition d s = .ok () { s with
      sources := { source with definition := d } :: rest } := by
  cases s
  cases hs
  rfl

theorem exists_of_edit {p : Definition.Edit α} {a : α} (h : edit p s = .ok a t) :
    ∃ source rest d d', s.sources = source :: rest ∧ source.definition = some d ∧
      p d = .ok a d' ∧
      t = { s with sources := { source with definition := some d' } :: rest } := by
  cases hd : s.definition? with
  | none =>
    rw [edit_of_none hd] at h
    cases h
  | some d =>
    obtain ⟨source, rest, hs, hsd⟩ := definition?_eq_some hd
    unfold edit at h
    obtain ⟨x, u, hu, h⟩ := exists_of_bind h
    unfold currentDefinition at hu
    rw [hd] at hu
    cases hu
    cases hp : p d with
    | ok b d' =>
      rw [hp] at h
      obtain ⟨_, v, hv, h⟩ := exists_of_bind h
      rw [setDefinition_of_cons hs] at hv
      cases hv
      cases h
      exact ⟨source, rest, d, d', hs, hsd, hp, rfl⟩
    | error c d' =>
      rw [hp] at h
      obtain ⟨_, v, hv, h⟩ := exists_of_bind h
      cases h

theorem outline_definition (hs : s.sources = source :: rest) :
    s.outline.definition = source.definition.map fun d => (d.word, d.code) := by
  simp [outline, definition?_of_sources hs]

/-! ## Words that define and build -/

theorem revision_openDefinition (h : DefiningWord.openDefinition s = .ok () t) :
    Revision (nextName? s.sources) s.outline (.defining .colon) t.outline := by
  cases hc : s.isCompiling with
  | true =>
    rw [openDefinition_of_compiling hc] at h
    cases h
  | false =>
    have hd := definition?_eq_none hc
    cases hsrc : s.sources with
    | nil =>
      rw [openDefinition_of_nil hsrc] at h
      cases h
    | cons source rest =>
      rw [openDefinition_of_source hc hsrc] at h
      cases hn : nextName s with
      | error e u =>
        rw [hn] at h
        cases h
      | ok x u =>
        rw [hn] at h
        cases h
        obtain ⟨source', rest', hu⟩ := sources_nextName hsrc hn
        obtain ⟨-, sources, rfl, -⟩ := exists_of_nextName hn
        obtain rfl : sources = source' :: rest' := hu
        exact .opens x.1 x.2 (by simp [outline, hd])

theorem revision_closeDefinition (h : DefiningWord.closeDefinition s = .ok () t) :
    Revision (nextName? s.sources) s.outline (.defining .semicolon) t.outline := by
  unfold DefiningWord.closeDefinition at h
  obtain ⟨r, u, hu, h⟩ := exists_of_bind h
  obtain ⟨source, rest, d, d', hs, hd, hf, rfl⟩ := exists_of_edit hu
  rw [Definition.finish_eq] at hf
  split at hf
  · cases hf
  · split at hf
    · cases hf
      cases h
    · cases hf
      cases h
      have ho : s.outline.definition = some (d.word, d.code) := by
        rw [outline_definition hs, hd]
        rfl
      exact .closes d.source ho

theorem revision_makeImmediate (h : DefiningWord.makeImmediate s = .ok () t) :
    Revision (nextName? s.sources) s.outline (.defining .immediate) t.outline := by
  unfold DefiningWord.makeImmediate at h
  rw [StackLang.get_bind] at h
  cases hi : (s.definition?.map (·.word)).or s.dictionary.latestUserWord? with
  | none =>
    rw [hi] at h
    cases h
  | some index =>
    rw [hi] at h
    cases h
    refine .makesImmediate ?_
    simpa [Outline.latest?, outline, Function.comp_def] using hi

theorem revision_forgetWord (h : DefiningWord.forgetWord s = .ok () t) :
    Revision (nextName? s.sources) s.outline (.defining .forget) t.outline := by
  unfold DefiningWord.forgetWord at h
  obtain ⟨⟨location, name⟩, u, hu, h⟩ := exists_of_bind h
  obtain ⟨hn, sources, rfl, hd⟩ := exists_of_nextName hu
  obtain ⟨⟨index, e⟩, v, hv, h⟩ := exists_of_bind h
  unfold lookup at hv
  cases hf : s.dictionary.find? name with
  | none =>
    rw [hf] at hv
    cases hv
  | some found =>
    rw [hf] at hv
    cases hv
    dsimp only at h
    split at h
    · cases h
    · rename_i hb
      cases h
      have ho := outline_ahead hd s.stack s.cells (s.dictionary.forgetBackTo index)
      exact ho ▸ .forgets hn hf (Bool.not_eq_true _ ▸ hb)

theorem revision_defining {w : DefiningWord} (h : w.run s = .ok () t) :
    Revision (nextName? s.sources) s.outline (.defining w) t.outline := by
  cases w with
  | colon => exact revision_openDefinition h
  | semicolon => exact revision_closeDefinition h
  | constant =>
    obtain ⟨_, u, hu, h⟩ := exists_of_bind h
    obtain ⟨stack, rfl⟩ := exists_of_operands hu
    obtain ⟨⟨location, name⟩, v, hv, h⟩ := exists_of_bind h
    obtain ⟨-, sources, rfl, hd⟩ := exists_of_nextName hv
    obtain ⟨x, w, hw, h⟩ := exists_of_bind h
    obtain ⟨stack', rfl⟩ := exists_of_operands hw
    cases h
    exact outline_ahead hd stack' s.cells _ ▸ .constant location name x
  | «variable» =>
    obtain ⟨⟨location, name⟩, u, hu, h⟩ := exists_of_bind h
    obtain ⟨-, sources, rfl, hd⟩ := exists_of_nextName hu
    obtain ⟨address, v, hv, h⟩ := exists_of_bind h
    unfold allot at hv
    cases ha : s.cells.allot? 1 with
    | none =>
      rw [ha] at hv
      cases hv
    | some found =>
      obtain ⟨first, cells⟩ := found
      rw [ha] at hv
      cases hv
      cases h
      obtain ⟨rfl, hh⟩ := CellStore.here_allot? ha
      have ho := outline_ahead hd s.stack cells (s.dictionary.insert
        (DefiningWord.valueEntry location name (.address (UInt64.ofNat s.cells.here)) " -- address"
          (.variable s.cells.here))).2
      rw [hh] at ho
      exact ho ▸ .variable location name
  | immediate => exact revision_makeImmediate h
  | forget => exact revision_forgetWord h
  | reset =>
    cases h
    exact s.outline_resetDefinitions ▸ .resets

theorem revision_control {w : ControlWord} (h : w.run s = .ok () t) :
    Revision (nextName? s.sources) s.outline (.control w) t.outline := by
  unfold ControlWord.run at h
  rw [StackLang.get_bind] at h
  obtain ⟨source, rest, d, d', hs, hd, hp, rfl⟩ := exists_of_edit h
  have ho : s.outline.definition = some (d.word, d.code) := by
    rw [outline_definition hs, hd]
    rfl
  have hc := Definition.callsWithin_compileStep s.location d w
  have hw := Definition.word_compileStep s.location d w
  rw [hp] at hc hw
  have ho' : outline { s with sources := { source with definition := some d' } :: rest } =
      { s.outline with definition := some (d.word, d'.code) } := by
    rw [← show d'.word = d.word from hw]
    rfl
  exact ho' ▸ .builds ho hc

/-- What a built-in word that succeeds does to what a session knows of words. -/
theorem revision_of_run {w : Builtin} (h : w.run s = .ok () t) :
    Revision (nextName? s.sources) s.outline w t.outline := by
  have hP := insensitive_steady s
  cases w with
  | stack w => exact (steady_of_triple (hP.triple_operands _) h).revision nofun
  | returns w => exact (steady_of_triple (hP.triple_returns w) h).revision nofun
  | math w => exact (steady_of_triple (hP.triple_operands _) h).revision nofun
  | memory w => exact (steady_of_triple (hP.triple_memory w) h).revision nofun
  | defining w => exact revision_defining h
  | control w => exact revision_control h
  | output w => exact (steady_of_triple (hP.triple_output w) h).revision nofun

end Session

end StackLang
