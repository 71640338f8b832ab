import StackLang.Proofs.Framework.Outcome
import StackLang.Proofs.Saved.Bodies
import StackLang.Proofs.Words.Steps

/-!
# Tokens inside of a definition

What a token does while a definition is open: it adds its words to the body, or it closes the
definition, or it fails, or it starts a word.

* `yields_bodyToken`, `stops_bodyToken`: a token that has an effect on the body.
* `yields_semicolon`: the end of a definition.
* `yields_interlude`, `stops_interlude`: a token that runs a word.
* `closes_of_bodyToken`: nothing else succeeds without starting a word.
-/

namespace StackLang

/-- The entry is immediate from now on if `marks` is set. -/
def Dictionary.marking (d : Dictionary) (index : Nat) (marks : Bool) : Dictionary :=
  d.modify index fun e => { e with immediate := e.immediate || marks }

@[simp] theorem Dictionary.marking_false (d : Dictionary) (index : Nat) :
    d.marking index false = d := by
  ext1 i
  unfold marking
  rw [get?_modify_eq]
  split
  · cases d.get? i <;> simp
  · rfl

namespace Session

/-- The session with this source in front. -/
def reading (s : Session) (tokens : List Token) (definition : Option Definition)
    (rest : List Pending) : Session :=
  { s with sources := ⟨tokens, definition⟩ :: rest }

/-- The session where this dictionary is known and this place was reached. -/
def knowing (s : Session) (location : Option Location) (dictionary : Dictionary) : Session :=
  { s with location, dictionary }

theorem reading_of_sources {s : Session} {source : Pending} {rest : List Pending}
    (h : s.sources = source :: rest) : s = s.reading source.tokens source.definition rest := by
  cases s
  cases h
  rfl

theorem Beside.reading_tail {s s' : Session} {token : Token} {tokens : List Token}
    {definition : Option Definition} {rest : List Pending}
    (hs : (s.reading (token :: tokens) definition rest).Beside s') (l : Option Location) :
    ((s.knowing l s.dictionary).reading tokens definition rest).Beside
      ((s'.knowing l s'.dictionary).reading tokens definition rest) := by
  obtain ⟨builtin, calls, output, observers, rfl⟩ := hs
  exact ⟨builtin, calls, output, observers, rfl⟩

end Session

namespace Action

open Session

variable {α : Type} {s t : Session} {tokens : List Token} {rest : List Pending} {a : α}
  {d d' : Definition} {c : Cause} {l : Option Location}

/-! ## Editing -/

theorem edit_reading (p : Definition.Edit α) (d : Definition) {s' : Session}
    (hs : (s.reading tokens (some d) rest).Beside s') : edit p s' = match p d with
      | .ok a d' => .ok a (s'.reading tokens (some d') rest)
      | .error c d' => .error (.script ((s'.reading tokens (some d') rest).error c))
          (s'.reading tokens (some d') rest) := by
  obtain ⟨_, _, _, _, rfl⟩ := hs
  unfold edit
  rw [bind_apply]
  unfold currentDefinition
  dsimp only [reading, definition?, List.head?, Option.bind]
  cases p d <;> rfl

theorem yields_edit {p : Definition.Edit α} (h : p d = .ok a d') :
    Yields (edit p) (s.reading tokens (some d) rest) a (s.reading tokens (some d') rest) := by
  intro s' hs
  rw [edit_reading p d hs, h]
  obtain ⟨builtin, calls, output, observers, rfl⟩ := hs
  exact ⟨_, rfl, builtin, calls, output, observers, rfl⟩

theorem stops_edit {p : Definition.Edit α} (h : p d = .error c d') :
    Stops (edit p) (s.reading tokens (some d) rest) := by
  intro s' hs
  rw [edit_reading p d hs, h]
  exact ⟨_, _, rfl⟩

theorem yields_compile (l : Option Location) (op : Op) :
    Yields (compile l op) (s.reading tokens (some d) rest) ()
      (s.reading tokens (some { d with code := d.code.push ⟨l, op⟩ }) rest) :=
  (yields_edit (Definition.emit_eq l op d)).discard

theorem yields_literal (l : Location) (v : Value) :
    Yields (literal l v) (s.reading tokens (some d) rest) ()
      (s.reading tokens (some { d with code := d.code.push ⟨some l, .push v⟩ }) rest) := by
  refine Yields.view fun s' hs => ?_
  rw [if_pos (show s'.isCompiling = true from hs.isCompiling)]
  exact yields_compile (some l) (.push v)

/-! ## Lexemes -/

theorem yields_controlWord {w : ControlWord} (hw : w.compileStep s.location d = .ok () d') :
    Yields w.run (s.reading tokens (some d) rest) () (s.reading tokens (some d') rest) := by
  refine Yields.view fun s' hs => yields_edit ?_
  obtain ⟨_, _, _, _, rfl⟩ := hs
  exact hw

theorem stops_controlWord {w : ControlWord} (hw : w.compileStep s.location d = .error c d') :
    Stops w.run (s.reading tokens (some d) rest) := by
  refine Stops.view fun s' hs => ?_
  obtain ⟨_, _, _, _, rfl⟩ := hs
  exact stops_edit hw

theorem yields_makeImmediate : Yields DefiningWord.makeImmediate (s.reading tokens (some d) rest) ()
    ((s.knowing s.location (s.dictionary.marking d.word true)).reading tokens (some d) rest) := by
  rintro s' ⟨builtin, calls, output, observers, rfl⟩
  refine ⟨_, rfl, builtin, calls, output, observers, ?_⟩
  simp [reading, knowing, Dictionary.marking]

/-- A word without any effect on the body is not compiled. -/
theorem effect?_word {name : String} {index : Nat} {e : Entry} {ws : List BodyWord} {marks : Bool}
    (hf : s.dictionary.find? name = some (index, e))
    (hx : (Lexeme.word name).effect? s.dictionary = some (ws, marks)) :
    (e.immediate = false ∧ ws = [.call e.isBuiltin index] ∧ marks = false) ∨
    (e.immediate = true ∧ ∃ w, e.body = .builtin (.control w) ∧ ws = [.control w] ∧
      marks = false) ∨
    (e.immediate = true ∧ e.body = .builtin (.defining .immediate) ∧ ws = [] ∧ marks = true) := by
  simp only [Lexeme.effect?, hf, Option.bind_some] at hx
  split at hx
  · rename_i hi
    split at hx
    · rename_i w hb
      cases hx
      exact .inr (.inl ⟨hi, w, hb, rfl, rfl⟩)
    · rename_i hb
      cases hx
      exact .inr (.inr ⟨hi, hb, rfl, rfl⟩)
    · cases hx
  · rename_i hi
    cases hx
    exact .inl ⟨by simpa using hi, rfl, rfl⟩

/-- A lexeme does to the definition what its words do. -/
theorem yields_effect {x : Lexeme} {l : Location} {ws : List BodyWord} {marks : Bool}
    (hl : s.location = some l) (hx : x.effect? s.dictionary = some (ws, marks))
    (hb : Definition.build (Definition.placed (some l) ws) d = .ok () d') :
    Yields (runLexeme l x) (s.reading tokens (some d) rest) ()
      ((s.knowing s.location (s.dictionary.marking d.word marks)).reading tokens (some d')
        rest) := by
  cases x with
  | number n =>
    cases hx
    cases hb
    rw [Dictionary.marking_false]
    exact yields_literal l _
  | string form text =>
    cases form with
    | display =>
      cases hx
      cases hb
      rw [Dictionary.marking_false]
      exact yields_print _ _
    | push =>
      cases hx
      cases hb
      rw [Dictionary.marking_false]
      exact (yields_literal l _).bind (yields_literal l _)
    | print =>
      simp only [Lexeme.effect?] at hx
      cases hf : s.dictionary.find? "TYPE" with
      | none =>
        rw [hf] at hx
        cases hx
      | some found =>
        rw [hf] at hx
        cases hx
        cases hb
        rw [Dictionary.marking_false]
        refine Yields.view fun s' hs => ?_
        rw [if_pos (show s'.isCompiling = true from hs.isCompiling)]
        refine Yields.view fun s'' hs' => ?_
        have hdict : (s.reading tokens (some d) rest).dictionary = s.dictionary := rfl
        rw [hs'.dictionary, hdict, hf]
        exact (yields_compile _ _).bind ((yields_compile _ _).bind (yields_compile _ _))
  | word name =>
    cases hf : s.dictionary.find? name with
    | none =>
      simp only [Lexeme.effect?, hf] at hx
      cases hx
    | some found =>
      obtain ⟨index, e⟩ := found
      have hf' : (s.reading tokens (some d) rest).dictionary.find? name = some (index, e) := hf
      rcases effect?_word hf hx with ⟨hi, rfl, rfl⟩ | ⟨hi, w, hw, rfl, rfl⟩ | ⟨hi, hw, rfl, rfl⟩
      · cases hb
        rw [Dictionary.marking_false]
        intro s' hs
        rw [runLexeme, word_of_find? (hs.dictionary ▸ hf'), hs.isCompiling]
        have hc : (s.reading tokens (some d) rest).isCompiling = true := rfl
        simp only [hc, hi, Bool.not_true, Bool.and_false, Bool.false_eq_true, if_false,
          Bool.not_false, Bool.and_self, if_true]
        exact yields_compile _ _ s' hs
      · rw [Dictionary.marking_false]
        refine yields_word hf' hw (fun _ => rfl) (fun _ => hi) (yields_controlWord ?_)
        rwa [hl, ← show _ = ControlWord.compileStep (some l) w d from
          Definition.build_singleton (some l) d (.control w)]
      · cases hb
        exact yields_word hf' hw (fun _ => rfl) (fun _ => hi) yields_makeImmediate

/-- A lexeme fails if the definition does not take its words. -/
theorem stops_effect {x : Lexeme} {l : Location} {ws : List BodyWord} {marks : Bool}
    (hl : s.location = some l) (hx : x.effect? s.dictionary = some (ws, marks))
    (hb : Definition.build (Definition.placed (some l) ws) d = .error c d') :
    Stops (runLexeme l x) (s.reading tokens (some d) rest) := by
  cases x with
  | number n =>
    cases hx
    cases hb
  | string form text =>
    cases form with
    | display | push =>
      cases hx
      cases hb
    | print =>
      simp only [Lexeme.effect?] at hx
      cases hf : s.dictionary.find? "TYPE" with
      | none =>
        rw [hf] at hx
        cases hx
      | some found =>
        rw [hf] at hx
        cases hx
        cases hb
  | word name =>
    cases hf : s.dictionary.find? name with
    | none =>
      simp only [Lexeme.effect?, hf] at hx
      cases hx
    | some found =>
      obtain ⟨index, e⟩ := found
      have hf' : (s.reading tokens (some d) rest).dictionary.find? name = some (index, e) := hf
      rcases effect?_word hf hx with ⟨hi, rfl, rfl⟩ | ⟨hi, w, hw, rfl, rfl⟩ | ⟨hi, hw, rfl, rfl⟩
      · cases hb
      · have hstep : w.compileStep s.location d = .error c d' := by
          rwa [hl, ← show _ = ControlWord.compileStep (some l) w d from
            Definition.build_singleton (some l) d (.control w)]
        exact stops_word hf' hw (fun _ => hi) (stops_controlWord hstep)
      · cases hb

/-! ## Closing -/

theorem yields_closeDefinition (hc : d.control = [])
    (ht : Definition.strayTarget? (d.code.push ⟨none, .exit⟩) = none) :
    Yields DefiningWord.closeDefinition (s.reading tokens (some d) rest) ()
      ((s.knowing s.location (s.dictionary.modify d.word
        (Entry.filled (d.code.push ⟨none, .exit⟩) d.source))).reading tokens none rest) := by
  have hf : Definition.finish d = .ok (.ok (d.code.push ⟨none, .exit⟩)) { d with code := #[] } := by
    rw [Definition.finish_eq, hc]
    dsimp only
    rw [ht]
  refine (yields_edit hf).bind ?_
  rintro s' ⟨builtin, calls, output, observers, rfl⟩
  exact ⟨_, rfl, builtin, calls, output, observers, rfl⟩

theorem stops_closeDefinition
    (h : ¬ (d.control = [] ∧ Definition.strayTarget? (d.code.push ⟨none, .exit⟩) = none)) :
    Stops DefiningWord.closeDefinition (s.reading tokens (some d) rest) := by
  have hf := Definition.finish_eq d
  cases hc : d.control with
  | cons c control =>
    rw [hc] at hf
    exact (stops_edit hf).bind _
  | nil =>
    rw [hc] at hf
    cases ht : Definition.strayTarget? (d.code.push ⟨none, .exit⟩) with
    | none => exact (h ⟨hc, ht⟩).elim
    | some found =>
      rw [ht] at hf
      exact Stops.after (yields_edit hf) fun s' _ => ⟨_, s', rfl⟩

/-! ## Compiled words -/

/-- The session where this word runs. -/
def executing (s : Session) (frame : CallFrame) (returns : ReturnStack) : Session :=
  { s with frame := some frame, returns }

variable {name : String} {index : Nat} {e : Entry} {code : Code} {returns : ReturnStack}

/-- A name runs the compiled word that it stands for. -/
theorem yields_compiledWord {l : Location} (he : s.dictionary.find? name = some (index, e))
    (hb : e.body = .compiled code) (hc : e.compileOnly = true → s.isCompiling = true)
    (hi : s.isCompiling = true → e.immediate = true)
    (hr : s.returns.push? (.call s.frame) = some returns) :
    Yields (word l name) s () (executing s ⟨index, e.name, code, 0⟩ returns) := by
  intro s' hs
  have hget := (Dictionary.find?_eq_some_iff.1 he).2.1
  rw [word_of_find? (hs.dictionary ▸ he), hs.isCompiling, if_neg, if_neg,
    call_of_compiled (hs.dictionary ▸ hget) hb, callCompiled_eq]
  · dsimp only
    rw [hs.returns, hs.frame, hr]
    obtain ⟨builtin, calls, output, observers, rfl⟩ := hs
    exact ⟨_, rfl, builtin, _, output, _, rfl⟩
  · cases hcomp : s.isCompiling <;> simp_all
  · cases honly : e.compileOnly <;> simp_all

/-- The return stack may be full. -/
theorem stops_compiledWord {l : Location} (he : s.dictionary.find? name = some (index, e))
    (hb : e.body = .compiled code) (hi : s.isCompiling = true → e.immediate = true)
    (hr : s.returns.push? (.call s.frame) = none) : Stops (word l name) s := by
  intro s' hs
  have hget := (Dictionary.find?_eq_some_iff.1 he).2.1
  rw [word_of_find? (hs.dictionary ▸ he), hs.isCompiling]
  split
  · exact ⟨_, _, rfl⟩
  · rw [if_neg, call_of_compiled (hs.dictionary ▸ hget) hb, callCompiled_eq]
    · dsimp only
      rw [hs.returns, hs.frame, hr]
      exact ⟨_, _, rfl⟩
    · cases hcomp : s.isCompiling <;> simp_all

/-! ## Tokens -/

variable {token : Token}

/-- The first token is taken, and it is recorded if a definition was open. -/
theorem operation_reading {definition : Option Definition} {s' : Session} (hf : s.frame = none)
    (hs : (s.reading (token :: tokens) definition rest).Beside s') :
    operation s' = (do
        runLexeme token.location token.lexeme
        if definition.isSome then recordToken token)
      ((s'.knowing (some token.location) s'.dictionary).reading tokens definition rest) := by
  obtain ⟨builtin, calls, output, observers, rfl⟩ := hs
  unfold operation
  rw [StackLang.get_bind]
  simp only [reading, hf]
  rfl

/-- What a token makes of a session, with the token recorded if a definition is open before and
after it. -/
theorem yields_token {definition definition' : Option Definition} {s' : Session}
    {tokens' : List Token} (hf : s.frame = none)
    (h : Yields (runLexeme token.location token.lexeme)
      ((s.knowing (some token.location) s.dictionary).reading tokens definition rest) ()
      (s'.reading tokens' definition' rest)) :
    Yields operation (s.reading (token :: tokens) definition rest) ()
      (s'.reading tokens' (if definition.isSome then definition'.map (·.record token.text)
        else definition') rest) := by
  intro u hu
  rw [operation_reading hf hu]
  refine h.bind ?_ _ (hu.reading_tail _)
  split
  · rintro v ⟨builtin, calls, output, observers, rfl⟩
    cases definition' <;> exact ⟨_, rfl, builtin, calls, output, observers, rfl⟩
  · exact Yields.pure _ ()

theorem stops_token {definition : Option Definition} (hf : s.frame = none)
    (h : Stops (runLexeme token.location token.lexeme)
      ((s.knowing (some token.location) s.dictionary).reading tokens definition rest)) :
    Stops operation (s.reading (token :: tokens) definition rest) := by
  intro u hu
  rw [operation_reading hf hu]
  exact h.bind _ _ (hu.reading_tail _)

variable {ws : List BodyWord} {marks : Bool}

/-- A token of the body adds its words to the definition. -/
theorem yields_bodyToken (hf : s.frame = none)
    (hx : token.lexeme.effect? s.dictionary = some (ws, marks))
    (hb : Definition.build (Definition.placed (some token.location) ws) d = .ok () d') :
    Yields operation (s.reading (token :: tokens) (some d) rest) ()
      ((s.knowing (some token.location) (s.dictionary.marking d.word marks)).reading tokens
        (some (d'.record token.text)) rest) :=
  yields_token hf (yields_effect (s := s.knowing _ s.dictionary) rfl hx hb)

theorem stops_bodyToken (hf : s.frame = none)
    (hx : token.lexeme.effect? s.dictionary = some (ws, marks))
    (hb : Definition.build (Definition.placed (some token.location) ws) d = .error c d') :
    Stops operation (s.reading (token :: tokens) (some d) rest) :=
  stops_token hf (stops_effect (s := s.knowing _ s.dictionary) rfl hx hb)

/-- The end of a definition fills in its entry. -/
theorem yields_semicolon {name : String} {index : Nat} {e : Entry} (hf : s.frame = none)
    (hx : token.lexeme = .word name) (he : s.dictionary.find? name = some (index, e))
    (hw : e.body = .builtin (.defining .semicolon)) (hi : e.immediate = true)
    (hc : d.control = []) (ht : Definition.strayTarget? (d.code.push ⟨none, .exit⟩) = none) :
    Yields operation (s.reading (token :: tokens) (some d) rest) ()
      ((s.knowing (some token.location) (s.dictionary.modify d.word
        (Entry.filled (d.code.push ⟨none, .exit⟩) d.source))).reading tokens none rest) := by
  have hword : Yields (runLexeme token.location token.lexeme)
      ((s.knowing (some token.location) s.dictionary).reading tokens (some d) rest) ()
      ((s.knowing (some token.location) (s.dictionary.modify d.word
        (Entry.filled (d.code.push ⟨none, .exit⟩) d.source))).reading tokens none rest) := by
    rw [hx]
    exact yields_word he hw (fun _ => rfl) (fun _ => hi)
      (yields_closeDefinition (s := s.knowing _ s.dictionary) hc ht)
  exact yields_token hf hword

/-- A token of the body that runs a word gives it its frame, and is recorded. -/
theorem yields_interlude {name : String} {index : Nat} {e : Entry} {code : Code}
    {returns : ReturnStack} (hf : s.frame = none) (hx : token.lexeme = .word name)
    (he : s.dictionary.find? name = some (index, e)) (hi : e.immediate = true)
    (hb : e.body = .compiled code) (hr : s.returns.push? (.call none) = some returns) :
    Yields operation (s.reading (token :: tokens) (some d) rest) ()
      (((executing s ⟨index, e.name, code, 0⟩ returns).knowing (some token.location)
        s.dictionary).reading tokens (some (d.record token.text)) rest) := by
  have hword : Yields (runLexeme token.location token.lexeme)
      ((s.knowing (some token.location) s.dictionary).reading tokens (some d) rest) ()
      (((executing s ⟨index, e.name, code, 0⟩ returns).knowing (some token.location)
        s.dictionary).reading tokens (some d) rest) := by
    rw [hx]
    exact yields_compiledWord he hb (fun _ => rfl) (fun _ => hi) (hf.symm ▸ hr)
  exact yields_token hf hword

theorem stops_interlude {name : String} {index : Nat} {e : Entry} {code : Code}
    (hf : s.frame = none) (hx : token.lexeme = .word name)
    (he : s.dictionary.find? name = some (index, e)) (hi : e.immediate = true)
    (hb : e.body = .compiled code) (hr : s.returns.push? (.call none) = none) :
    Stops operation (s.reading (token :: tokens) (some d) rest) := by
  refine stops_token hf ?_
  rw [hx]
  exact stops_compiledWord he hb (fun _ => hi) (hf.symm ▸ hr)

/-- A token that has no effect on the body closes the definition, if it succeeds and runs no
compiled word. -/
theorem closes_of_bodyToken (hf : s.frame = none) (hd : s.dictionary.Sound)
    (hx : token.lexeme.effect? s.dictionary = none)
    (hq : ∀ name index e code, token.lexeme = .word name →
      s.dictionary.find? name = some (index, e) → e.immediate = true → e.body ≠ .compiled code)
    (h : operation (s.reading (token :: tokens) (some d) rest) = .ok () t) :
    d.control = [] ∧ Definition.strayTarget? (d.code.push ⟨none, .exit⟩) = none ∧
      ((s.knowing (some token.location) (s.dictionary.modify d.word
        (Entry.filled (d.code.push ⟨none, .exit⟩) d.source))).reading tokens none
          rest).Beside t := by
  have stopped {P : Prop} (hp : Stops (runLexeme token.location token.lexeme)
      ((s.knowing (some token.location) s.dictionary).reading tokens (some d) rest)) : P :=
    ((stops_token hf hp).not_ok h).elim
  cases hl : token.lexeme with
  | number n =>
    rw [hl] at hx
    cases hx
  | string form text =>
    rw [hl] at hx stopped
    cases form with
    | display | push => cases hx
    | print =>
      simp only [Lexeme.effect?, Option.map_eq_none_iff] at hx
      refine stopped (Stops.view fun s' hs => ?_)
      rw [if_pos (show s'.isCompiling = true from hs.isCompiling)]
      refine Stops.view fun s'' hs' => ?_
      rw [hs'.dictionary]
      dsimp only [reading, knowing]
      rw [hx]
      exact fun s' _ => ⟨_, s', rfl⟩
  | word name =>
    rw [hl] at hx stopped
    cases hfind : s.dictionary.find? name with
    | none => exact stopped (stops_word_of_none hfind)
    | some found =>
      obtain ⟨index, e⟩ := found
      have hget := (Dictionary.find?_eq_some_iff.1 hfind).2.1
      simp only [Lexeme.effect?, hfind, Option.bind_some] at hx
      split at hx
      · rename_i hi
        cases hb : e.body with
        | builtin w =>
          have hrole := (hd index e hget).role w hb hi
          rw [hb] at hx
          cases w with
          | stack w | returns w | math w | memory w | output w =>
            exact (hrole (by cases w <;> rfl)).elim
          | control w => cases hx
          | defining w =>
            cases w with
            | colon =>
              refine stopped (stops_word hfind hb (fun _ => hi) fun s' hs => ?_)
              exact ⟨_, s', openDefinition_of_compiling hs.isCompiling⟩
            | semicolon =>
              by_cases hclose : d.control = [] ∧
                  Definition.strayTarget? (d.code.push ⟨none, .exit⟩) = none
              · refine ⟨hclose.1, hclose.2, ?_⟩
                exact ((yields_semicolon hf hl hfind hb hi hclose.1 hclose.2).of_ok h).2
              · exact stopped (stops_word hfind hb (fun _ => hi) (stops_closeDefinition hclose))
            | immediate => cases hx
            | _ => exact (hrole rfl).elim
        | compiled code => exact (hq name index e code hl hfind hi hb).elim
      · cases hx

end Action

end StackLang
