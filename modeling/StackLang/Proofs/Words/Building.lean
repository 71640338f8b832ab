import StackLang.Proofs.Definition.Directions
import StackLang.Proofs.Termination.Steps
import StackLang.Proofs.Words.Closing

/-!
# What holds of the open definition

While a definition is open, whatever runs does nothing to it but compile words of its body and keep
the tokens that are read.  What these keep holds of the open definition in every session of a run.

* `Definition.Kept`: a property that a definition does not lose while its body is built.
* `building_of_step`, `building_of_move`: an open definition goes on to have it.
* `building_of_visits`: every open definition of a run has it, if a new one has.
* `building_of_compiling`: one that is open all along has it, whatever new ones have.
-/

namespace StackLang

/-- A property that a definition does not lose while its body is built. -/
structure Definition.Kept (P : Definition → Prop) : Prop where
  word : ∀ {l : Option Location} {w : BodyWord} {d d' : Definition}, P d →
    w.compileStep l d = .ok () d' → P d'
  record : ∀ {d : Definition} (text : String), P d → P (d.record text)

theorem Definition.Kept.and {P Q : Definition → Prop} (hP : Kept P) (hQ : Kept Q) :
    Kept fun d => P d ∧ Q d where
  word h hw := ⟨hP.word h.1 hw, hQ.word h.2 hw⟩
  record text h := ⟨hP.record text h.1, hQ.record text h.2⟩

/-- Every definition has the property when it is opened. -/
def Definition.Initial (P : Definition → Prop) : Prop :=
  ∀ word name location, P (opened word name location)

namespace Session

open StackLang.Action

/-- The open definition, if there is one, has the property. -/
def Building (P : Definition → Prop) (s : Session) : Prop :=
  ∀ d, s.definition? = some d → P d

variable {α : Type} {P : Definition → Prop} {s t : Session}

theorem Building.congr (h : s.Building P) (hd : t.definition? = s.definition?) : t.Building P :=
  fun d hd' => h d (hd ▸ hd')

theorem building_of_none (h : t.definition? = none) : t.Building P := by
  intro d hd
  rw [h] at hd
  cases hd

theorem insensitive_building (P : Definition → Prop) : Insensitive (Building P) Anything where
  fails := fun _ _ => trivial
  data := fun _ _ h => h
  prints := fun _ h => h
  observe := fun _ h => h
  token := by
    intro s source behind rest t hs ht h
    refine h.congr ?_
    rw [definition?_of_sources hs, ← Pending.definition_of_nextToken? ht]
    rfl
  putAside := fun _ h => h
  takeBack := fun _ h => h

theorem definition?_of_ahead (h : s.Ahead t) : t.definition? = s.definition? := by
  obtain ⟨sources, rfl, hd⟩ := h
  have hhead := congrArg (·.head?.bind id) hd
  simpa [definition?, Option.bind_map] using hhead

/-! ## Edits -/

theorem building_of_edit {p : Definition.Edit α} {a : α}
    (hp : ∀ d d', P d → p d = .ok a d' → P d') (h : edit p s = .ok a t) (hs : s.Building P) :
    t.Building P := by
  obtain ⟨source, rest, d, d', hsources, hd, hr, rfl⟩ := exists_of_edit h
  intro x hx
  cases hx
  exact hp d d' (hs d ((definition?_of_sources hsources).trans hd)) hr

section

variable (hP : Definition.Kept P)
include hP

/-- Compiling the instruction of a body word. -/
theorem building_of_compile {l : Option Location} {op : Op} {w : BodyWord}
    (hw : w.compileStep l = discard (Definition.emit l op)) (h : compile l op s = .ok () t)
    (hs : s.Building P) : t.Building P := by
  obtain ⟨_, u, hu, h⟩ := exists_of_bind h
  cases h
  refine building_of_edit (fun d d' hd hr => hP.word (w := w) (l := l) hd ?_) hu hs
  rw [hw, discard_apply, hr]

theorem building_of_literal {l : Location} {v : Value} (h : literal l v s = .ok () t)
    (hs : s.Building P) : t.Building P := by
  unfold literal at h
  rw [StackLang.get_bind] at h
  split at h
  · exact building_of_compile hP (w := .literal v) rfl h hs
  · obtain ⟨stack, rfl⟩ := exists_of_operands (show operands (.push v) s = .ok () t from h)
    exact hs

theorem building_of_stringLiteral {l : Location} {form : StringForm} {text : String}
    (h : stringLiteral l form text s = .ok () t) (hs : s.Building P) : t.Building P := by
  cases form with
  | display =>
    cases h
    exact hs
  | push =>
    obtain ⟨_, u, hu, h⟩ := exists_of_bind h
    exact building_of_literal hP h (building_of_literal hP hu hs)
  | print =>
    unfold stringLiteral at h
    dsimp only at h
    rw [StackLang.get_bind] at h
    split at h
    · rw [StackLang.get_bind] at h
      cases hf : s.dictionary.find? "TYPE" with
      | none =>
        rw [hf] at h
        cases h
      | some found =>
        rw [hf] at h
        obtain ⟨_, u, hu, h⟩ := exists_of_bind h
        obtain ⟨_, v, hv, h⟩ := exists_of_bind h
        have hu' := building_of_compile hP (w := .literal _) rfl hu hs
        have hv' := building_of_compile hP (w := .literal _) rfl hv hu'
        exact building_of_compile hP (w := .call true _) rfl h hv'
    · cases h
      exact hs

theorem building_of_recordToken {token : Token} (h : recordToken token s = .ok () t)
    (hs : s.Building P) : t.Building P := by
  unfold recordToken at h
  rw [StackLang.get_bind] at h
  cases hd : s.definition? with
  | none =>
    rw [hd] at h
    cases h
    exact hs
  | some d =>
    rw [hd] at h
    obtain ⟨source, rest, hsources, -⟩ := definition?_eq_some hd
    dsimp only at h
    rw [setDefinition_of_cons hsources] at h
    cases h
    intro x hx
    cases hx
    exact hP.record token.text (hs d hd)

omit hP in
/-- The sources behind the first one bring no definition to the front. -/
theorem building_of_dropUsedSources (hc : s.Consistent) (h : dropUsedSources s = .ok () t)
    (hs : s.Building P) : t.Building P := by
  unfold dropUsedSources at h
  rw [StackLang.get_bind] at h
  split at h
  · cases hu : unusedSources s.sources with
    | ok sources =>
      rw [hu] at h
      cases h
      exact fun d hd => hs d (hc.definition?_unusedSources hu hd)
    | error d =>
      rw [hu] at h
      cases h
  · cases h
    exact hs

/-! ## Built-in words -/

variable (hopen : s.isCompiling = true ∨ Definition.Initial P)
include hopen

omit hP in
/-- A definition is opened only where none is open. -/
theorem building_of_openDefinition (h : DefiningWord.openDefinition s = .ok () t) :
    t.Building P := by
  cases hc : s.isCompiling with
  | true =>
    rw [openDefinition_of_compiling hc] at h
    cases h
  | false =>
    cases hsources : s.sources with
    | nil =>
      rw [openDefinition_of_nil hsources] at h
      cases h
    | cons source rest =>
      rw [openDefinition_of_source hc hsources] at h
      cases hn : nextName s with
      | error e u =>
        rw [hn] at h
        cases h
      | ok found u =>
        rw [hn] at h
        cases h
        obtain ⟨source', rest', hu⟩ := sources_nextName hsources hn
        intro d hd
        simp only [opening, definition?, hu] at hd
        cases hd
        exact hopen.resolve_left (by simp [hc]) _ _ _

omit hP in
theorem building_of_defining {w : DefiningWord} (h : w.run s = .ok () t) (hs : s.Building P) :
    t.Building P := by
  have hi := insensitive_building P
  -- The entry that is made for a value has nothing to do with the definition.
  have defines (e : Entry) :
      Triple (Building P) (discard (define e)) (fun _ => Building P) Anything :=
    Triple.discard fun _ h => h
  cases w with
  | colon => exact building_of_openDefinition hopen h
  | semicolon => exact building_of_none (unopened_closeDefinition h)
  | constant =>
    refine of_triple ((hi.triple_operands _).bind fun _ => hi.triple_nextName.bind fun x => ?_) hs h
    exact (hi.triple_operands _).bind fun v => defines _
  | «variable» =>
    refine of_triple (hi.triple_nextName.bind fun x => (hi.triple_allot 1).bind fun a => ?_) hs h
    exact defines _
  | immediate =>
    refine of_triple (Triple.view fun u => ?_) hs h
    split
    · exact Triple.modify fun _ h => h
    · exact hi.triple_raise _
  | forget =>
    refine of_triple (hi.triple_nextName.bind fun x => (hi.triple_lookup x.2).bind fun y => ?_) hs h
    dsimp only
    split
    · exact Triple.view fun s => triple_raise_bind fun _ _ => trivial
    · exact Triple.modify fun _ h => h
  | reset =>
    cases h
    exact hs

theorem building_of_builtin {w : Builtin} (h : w.run s = .ok () t) (hs : s.Building P) :
    t.Building P := by
  have hi := insensitive_building P
  cases w with
  | stack w | math w => exact of_triple (hi.triple_operands _) hs h
  | returns w => exact of_triple (hi.triple_returns w) hs h
  | memory w => exact of_triple (hi.triple_memory w) hs h
  | output w => exact of_triple (hi.triple_output w) hs h
  | defining w => exact building_of_defining hopen h hs
  | control w =>
    refine building_of_edit (p := w.compileStep s.location) (fun d d' hd hr => ?_) h hs
    exact hP.word (w := .control w) hd hr

theorem building_of_callBuiltin {name : String} {w : Builtin} (h : callBuiltin name w s = .ok () t)
    (hs : s.Building P) : t.Building P := by
  unfold callBuiltin at h
  rw [modify_bind] at h
  obtain ⟨_, u, hu, h⟩ := exists_of_bind h
  rw [modify_bind] at h
  obtain ⟨observers, ho⟩ := exists_finishWord name { u with
    calls := u.calls.tail
    builtin := none }
  rw [ho] at h
  cases h
  have hbehind : u.Building P := building_of_builtin hP (s := { s with
    calls := ⟨name, s.location.getD .unspecified⟩ :: s.calls
    builtin := some name }) hopen hu hs
  exact hbehind

theorem building_of_call {index : Nat} (h : call index s = .ok () t) (hs : s.Building P) :
    t.Building P := by
  unfold call at h
  rw [StackLang.get_bind] at h
  cases he : s.dictionary.get? index with
  | none =>
    rw [he] at h
    cases h
  | some e =>
    rw [he] at h
    obtain ⟨_, u, hu, h⟩ := exists_of_bind h
    cases hu
    cases hb : e.body with
    | builtin w =>
      rw [hb] at h
      exact building_of_callBuiltin hP (s := { s with
        observers := s.observers.record (.starting e.name e.signature) }) hopen h hs
    | compiled code =>
      rw [hb] at h
      obtain ⟨returns, -, rfl⟩ := exists_of_callCompiled h
      exact hs

/-! ## Steps -/

theorem building_of_runInstruction {f : CallFrame} (h : runInstruction f s = .ok () t)
    (hs : s.Building P) : t.Building P := by
  cases hx : f.code[f.next]? with
  | none =>
    unfold runInstruction at h
    rw [hx] at h
    cases h
  | some x =>
    rw [runInstruction_eq hx] at h
    cases hop : x.op.callee? f.word with
    | none =>
      obtain ⟨hsources, -⟩ := kept_of_runOp (f := f) rfl hop h
      exact hs.congr (congrArg (fun sources => sources.head?.bind (·.definition)) hsources)
    | some index =>
      rw [runOp_of_callee? hop] at h
      exact building_of_call hP (s := { s with
        frame := some { f with next := f.next + 1 }
        location := x.location.or s.location }) hopen h hs

theorem building_of_word {l : Location} {name : String} (h : word l name s = .ok () t)
    (hs : s.Building P) : t.Building P := by
  cases hf : s.dictionary.find? name with
  | none =>
    obtain ⟨_, u, hu, -⟩ := exists_of_bind h
    unfold lookup at hu
    rw [hf] at hu
    cases hu
  | some found =>
    rw [word_of_find? hf] at h
    split at h
    · cases h
    · split at h
      · exact building_of_compile hP (w := .call found.2.isBuiltin found.1) rfl h hs
      · exact building_of_call hP hopen h hs

theorem building_of_runToken {token : Token} (h : runToken token s = .ok () t)
    (hs : s.Building P) : t.Building P := by
  unfold runToken at h
  rw [StackLang.get_bind, modify_bind] at h
  obtain ⟨_, u, hu, h⟩ := exists_of_bind h
  have hread : u.Building P := by
    cases hl : token.lexeme with
    | number value =>
      rw [hl] at hu
      exact building_of_literal hP (s := { s with location := some token.location }) hu hs
    | string form text =>
      rw [hl] at hu
      exact building_of_stringLiteral hP (s := { s with location := some token.location }) hu hs
    | word name =>
      rw [hl] at hu
      exact building_of_word hP (s := { s with location := some token.location }) hopen hu hs
  split at h
  · exact building_of_recordToken hP h hread
  · cases h
    exact hread

theorem building_of_operation (h : operation s = .ok () t) (hs : s.Building P) :
    t.Building P := by
  cases hf : s.frame with
  | some f =>
    rw [operation_of_frame hf] at h
    exact building_of_runInstruction hP hopen h hs
  | none =>
    unfold operation at h
    rw [StackLang.get_bind, hf] at h
    obtain ⟨found, u, hu, h⟩ := exists_of_bind h
    have hread : u.definition? = s.definition? := definition?_of_ahead (sheds_nextToken?.of_ok hu)
    cases found with
    | none =>
      cases h
      exact hs.congr hread
    | some token =>
      refine building_of_runToken hP ?_ h (hs.congr hread)
      rw [isCompiling, hread]
      exact hopen

theorem building_of_step (hv : s.Valid AbleOrBlank) (h : step s = .ok () t)
    (hs : s.Building P) : t.Building P := by
  obtain ⟨u, hu, h⟩ := exists_of_step_dropped h
  exact building_of_dropUsedSources (consistent_operation hv hu) h
    (building_of_operation hP hopen hu hs)

/-! ## Runs -/

theorem building_of_move {m : Move} (hv : s.Valid AbleOrBlank) (hm : remains (m.run s) = .ok t)
    (hs : s.Building P) : t.Building P := by
  cases hr : m.run s with
  | error f u =>
    rw [hr] at hm
    cases f with
    | script e =>
      cases hm
      exact building_of_none (by rw [definition?, (outline_of_error hv hr).2]; rfl)
    | breach b => cases hm
    | outOfFuel => exact (ne_outOfFuel_of_move hv hr).elim
  | ok a u =>
    rw [hr] at hm
    cases hm
    cases m with
    | enqueue path source =>
      cases hr
      exact hs.congr (definition?_enqueue s path source)
    | dropUsedSources =>
      exact building_of_dropUsedSources hv.toConsistent (eq_ok_of_checked hr) hs
    | step =>
      rcases step_of_run_step hr with ⟨-, h⟩ | ⟨-, rfl⟩
      · exact building_of_step hP hopen hv h hs
      · exact hs
    | reset =>
      cases hr
      exact building_of_none rfl
    | setMode | setCancelled | observe | takeOutput | mark | resetDefinitions =>
      cases hr
      exact hs

end

variable {moves : List Move}

/-- What holds of every new definition, and is kept while its body is built, holds of every open
definition. -/
theorem building_of_visits {config : Config} (hP : Definition.Kept P) (hi : Definition.Initial P)
    (hs : Visits moves (ofConfig config) s) : s.Building P := by
  refine hs.induct (building_of_none rfl) fun m u v hp hu => ?_
  obtain ⟨-, -, -, -, hm⟩ := id hp
  exact building_of_move hP (.inr hi) (valid_of_visits hp.before) hm hu

/-- While a definition is open all along, it keeps what is kept while its body is built. -/
theorem building_of_compiling (hP : Definition.Kept P) (hv : s.Valid AbleOrBlank)
    (hc : ∀ u, Visits moves s u → u.isCompiling = true) (hs : s.Building P)
    (ht : Visits moves s t) : t.Building P := by
  refine ht.induct hs fun m u v hp hu => ?_
  obtain ⟨-, -, -, -, hm⟩ := id hp
  exact building_of_move hP (.inl (hc u hp.before)) (hp.before.valid hv) hm hu

end Session

end StackLang
