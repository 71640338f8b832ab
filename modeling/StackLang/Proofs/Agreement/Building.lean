import StackLang.Proofs.Agreement.Abreast
import StackLang.Proofs.Evaluation.Modes
import StackLang.Proofs.Saved.Recorded

/-!
# Building a definition from portable tokens

The tokens between a name and the end of its definition, with what they do to the session: nothing
is seen of it but the new word at the end of the dictionary, whose code is that of the tokens one
behind the other.

* `Action.Builds`: the session while a definition of portable tokens is read.
* `takeSteps_body`: the tokens of the body, by induction on them.
* `exists_takeSteps_definition`: the definition as a whole.
-/

namespace StackLang

open Session

/-- The definition with these operations at its end. -/
def Definition.emitAll (l : Option Location) (ops : List Op) (d : Definition) : Definition :=
  ops.foldl (fun d op => { d with code := d.code.push ⟨l, op⟩ }) d

namespace Definition

/-- Portable tokens open no structure, and leave it open what the definition is of. -/
structure Extends (d : Definition) (ops : List Op) (d' : Definition) : Prop where
  word : d'.word = d.word
  control : d'.control = d.control
  ops : Code.ops d'.code = Code.ops d.code ++ ops

variable {d d' d'' : Definition} {ops ops' : List Op}

theorem Extends.trans (h : d.Extends ops d') (h' : d'.Extends ops' d'') :
    d.Extends (ops ++ ops') d'' :=
  ⟨h'.word.trans h.word, h'.control.trans h.control, by
    rw [h'.ops, h.ops, List.append_assoc]⟩

theorem Extends.record (h : d.Extends ops d') (text : String) : d.Extends ops (d'.record text) :=
  ⟨h.word, h.control, h.ops⟩

theorem extends_emitAll (l : Option Location) (ops : List Op) (d : Definition) :
    d.Extends ops (d.emitAll l ops) := by
  induction ops generalizing d with
  | nil => exact ⟨rfl, rfl, (List.append_nil _).symm⟩
  | cons op ops ih =>
    have hone : d.Extends [op] { d with code := d.code.push ⟨l, op⟩ } :=
      ⟨rfl, rfl, by simp [Code.ops]⟩
    exact hone.trans (ih _)

/-- Code without branches has none that leaves it. -/
theorem strayTarget?_of_ops {code : Code} (h : ∀ op ∈ code.ops, op.target? = none) :
    strayTarget? code = none := by
  unfold strayTarget?
  rw [List.findSome?_eq_none_iff]
  rintro ⟨x, i⟩ hx
  have hmem := List.fst_mem_of_mem_zipIdx hx
  dsimp only
  rw [h x.op (List.mem_map_of_mem hmem)]

end Definition

namespace Action

variable {s t : Session} {tokens : List Token} {rest : List Pending} {token named : Token}
  {d : Definition} {index : Nat} {e : Entry} {name : String}

/-! ## Tokens of the body -/

theorem compile_reading (s : Session) (tokens : List Token) (d : Definition) (rest : List Pending)
    (l : Option Location) (op : Op) :
    compile l op (s.reading tokens (some d) rest) =
      .ok () (s.reading tokens (some { d with code := d.code.push ⟨l, op⟩ }) rest) := by
  unfold compile
  rw [discard_apply, edit_reading _ _ (.refl _), Definition.emit_eq]
  rfl

theorem literal_reading (s : Session) (tokens : List Token) (d : Definition) (rest : List Pending)
    (l : Location) (v : Value) :
    literal l v (s.reading tokens (some d) rest) =
      .ok () (s.reading tokens (some { d with code := d.code.push ⟨some l, .push v⟩ }) rest) := by
  have hc : (s.reading tokens (some d) rest).isCompiling = true := rfl
  unfold literal
  rw [StackLang.get_bind, if_pos hc, compile_reading]

/-- A portable token adds its operations to the definition.  What names stand for was looked up
before the definition was opened. -/
theorem runLexeme_reading (s : Session) (tokens : List Token) (d : Definition)
    (rest : List Pending) {k : Dictionary} {x : Lexeme} (l : Location)
    (hk : ∀ name, s.dictionary.find? name = k.find? name) (hx : x.Portable k)
    (htype : k.Means "TYPE" (.output .type)) :
    runLexeme l x (s.reading tokens (some d) rest) =
      .ok () (s.reading tokens (some (d.emitAll (some l) (x.ops k))) rest) := by
  have hcompiling (d : Definition) : (s.reading tokens (some d) rest).isCompiling = true := rfl
  have called {name : String} {index : Nat} {e : Entry} (hf : k.find? name = some (index, e))
      (hi : e.immediate = false) :
      word l name (s.reading tokens (some d) rest) = .ok () (s.reading tokens
        (some (d.emitAll (some l) (Lexeme.ops k (.word name)))) rest) := by
    rw [word_of_find? (s := s.reading tokens (some d) rest) ((hk name).trans hf), if_neg,
      if_pos, compile_reading, Lexeme.ops, hf]
    · rfl
    · rw [hcompiling, hi]
      rfl
    · rw [hcompiling]
      simp
  cases hx with
  | number n => exact literal_reading s tokens d rest l _
  | push text =>
    show (literal l _ >>= fun _ => literal l _) _ = _
    rw [bind_apply, literal_reading]
    exact literal_reading ..
  | print h =>
    obtain ⟨index, e, hf, -⟩ := htype
    have hf' (d : Definition) :
        (s.reading tokens (some d) rest).dictionary.find? "TYPE" = some (index, e) :=
      (hk "TYPE").trans hf
    unfold runLexeme stringLiteral
    dsimp only
    rw [StackLang.get_bind, if_pos (hcompiling d), StackLang.get_bind, hf']
    dsimp only
    rw [bind_apply, compile_reading]
    dsimp only
    rw [bind_apply, compile_reading]
    dsimp only
    rw [compile_reading, Lexeme.ops, hf]
    rfl
  | builtin hf hi => exact called hf hi
  | compiled hf hi => exact called hf hi

/-- The first token is taken and run. -/
theorem operation_token (hf : s.frame = none) (definition : Option Definition) :
    operation (s.reading (token :: tokens) definition rest) = (do
        runLexeme token.location token.lexeme
        if definition.isSome then recordToken token)
      ((s.knowing (some token.location) s.dictionary).reading tokens definition rest) :=
  operation_reading hf (.refl _)

/-- A token of the body is read in one step, and it is recorded. -/
theorem exists_operation_bodyToken (tokens : List Token) (rest : List Pending) (d : Definition)
    {k : Dictionary} (hf : s.frame = none)
    (hk : ∀ name, s.dictionary.find? name = k.find? name) (hx : token.lexeme.Portable k)
    (htype : k.Means "TYPE" (.output .type)) :
    ∃ d', d.Extends (token.lexeme.ops k) d' ∧
      operation (s.reading (token :: tokens) (some d) rest) = .ok ()
        ((s.knowing (some token.location) s.dictionary).reading tokens (some d') rest) := by
  refine ⟨_, (Definition.extends_emitAll (some token.location) _ d).record token.text, ?_⟩
  have hrun := runLexeme_reading (s.knowing (some token.location) s.dictionary) tokens d rest
    token.location hk hx htype
  rw [operation_token hf, bind_apply, hrun]
  rfl

/-! ## The ends of a definition -/

/-- A built-in word that succeeds leaves nothing else behind. -/
theorem exists_callBuiltin {w : Builtin} (h : w.run (entering name s) = .ok () (entering name t))
    (hb : t.builtin = none) : ∃ observers, callBuiltin name w s = .ok () { t with observers } := by
  obtain ⟨o, ho⟩ := exists_finishWord name
    { entering name t with calls := (entering name t).calls.tail, builtin := none }
  refine ⟨o, ?_⟩
  show (w.run >>= fun _ => do
    modify fun s => { s with calls := s.calls.tail, builtin := none }
    finishWord name) (entering name s) = _
  rw [bind_apply, h]
  dsimp only
  rw [modify_bind, ho, show ({ t with observers := o } : Session) =
    { t with observers := o, builtin := none } by rw [← hb]]
  rfl

/-- The name of an immediate built-in word runs the word, inside of a definition or outside, if the
word means anything there. -/
theorem exists_word_builtin {w : Builtin} {l : Location} (hr : s.dictionary.Roles)
    (hw : w.spec.role ≠ .plain) (hc : s.isCompiling = true ∨ w.spec.role ≠ .compileOnly)
    (hm : s.dictionary.Means name w) (hb : t.builtin = none)
    (hrun : ∀ called o, w.run (entering called { s with observers := o }) =
      .ok () (entering called { t with observers := o })) :
    ∃ observers, word l name s = .ok () { t with observers } := by
  obtain ⟨index, e, hf, hbody⟩ := hm
  have he := (Dictionary.find?_eq_some_iff.1 hf).2.1
  obtain ⟨hi, honly⟩ := (hr index e he).spec w hbody
  rw [word_of_find? hf, if_neg (by rw [honly]; rcases hc with hc | hc <;> simp [hc]),
    if_neg (by rw [hi]; simp [hw]), call_of_builtin he hbody]
  exact exists_callBuiltin
    (t := { t with observers := s.observers.record (.starting e.name e.signature) })
    (hrun e.name _) hb

/-- A definition is opened, with a hidden entry for it. -/
theorem openDefinition_reading (hn : named.name? = some name) :
    DefiningWord.openDefinition (s.reading (named :: tokens) none rest) =
      .ok () ((s.knowing s.location
        (s.dictionary.push ((Entry.reserved named.location name).inserted
          s.dictionary.size))).reading tokens
        (some (.opened s.dictionary.size (Text.uppercase name) named.location)) rest) := by
  have hname : nextName (s.reading (named :: tokens) none rest) =
      .ok (named.location, name) (s.reading tokens none rest) := by
    unfold nextName
    rw [bind_apply]
    dsimp only [nextToken?, reading, Pending.nextToken?]
    rw [hn]
    rfl
  rw [openDefinition_of_source rfl rfl, hname]
  rfl

/-- The open definition is finished, and its entry filled in. -/
theorem closeDefinition_reading (hc : d.control = [])
    (ht : Definition.strayTarget? (d.code.push ⟨none, .exit⟩) = none) :
    DefiningWord.closeDefinition (s.reading tokens (some d) rest) =
      .ok () ((s.knowing s.location (s.dictionary.modify d.word
        (Entry.filled (d.code.push ⟨none, .exit⟩) d.source))).reading tokens none rest) := by
  have hf : Definition.finish d = .ok (.ok (d.code.push ⟨none, .exit⟩)) { d with code := #[] } := by
    rw [Definition.finish_eq, hc]
    dsimp only
    rw [ht]
  unfold DefiningWord.closeDefinition
  rw [bind_apply, edit_reading _ _ (.refl _), hf]
  rfl

theorem exists_operation_colon (tokens : List Token) (rest : List Pending) (hf : s.frame = none)
    (hb : s.builtin = none)
    (hr : s.dictionary.Roles) (hm : s.dictionary.Means ":" (.defining .colon))
    (hx : token.lexeme = .word ":") (hn : named.name? = some name) :
    ∃ observers, operation (s.reading (token :: named :: tokens) none rest) =
      .ok () { (s.knowing (some token.location) (s.dictionary.push
          ((Entry.reserved named.location name).inserted s.dictionary.size))).reading tokens
        (some (.opened s.dictionary.size (Text.uppercase name) named.location)) rest with
        observers } := by
  obtain ⟨o, ho⟩ := exists_word_builtin (l := token.location)
    (s := (s.knowing (some token.location) s.dictionary).reading (named :: tokens) none rest)
    (t := (s.knowing (some token.location) (s.dictionary.push
      ((Entry.reserved named.location name).inserted s.dictionary.size))).reading tokens
        (some (.opened s.dictionary.size (Text.uppercase name) named.location)) rest)
    hr (by decide) (.inr (by decide)) hm hb fun called o => openDefinition_reading
      (s := entering called { s.knowing (some token.location) s.dictionary with observers := o }) hn
  refine ⟨o, ?_⟩
  rw [operation_token hf, hx, bind_apply]
  dsimp only [runLexeme]
  rw [ho]
  rfl

theorem exists_operation_semicolon (tokens : List Token) (rest : List Pending)
    (hf : s.frame = none) (hb : s.builtin = none)
    (hr : s.dictionary.Roles) (hm : s.dictionary.Means ";" (.defining .semicolon))
    (hx : token.lexeme = .word ";") (hc : d.control = [])
    (ht : Definition.strayTarget? (d.code.push ⟨none, .exit⟩) = none) :
    ∃ observers, operation (s.reading (token :: tokens) (some d) rest) =
      .ok () { (s.knowing (some token.location) (s.dictionary.modify d.word
        (Entry.filled (d.code.push ⟨none, .exit⟩) d.source))).reading tokens none rest with
        observers } := by
  obtain ⟨o, ho⟩ := exists_word_builtin (l := token.location)
    (s := (s.knowing (some token.location) s.dictionary).reading tokens (some d) rest)
    (t := (s.knowing (some token.location) (s.dictionary.modify d.word
      (Entry.filled (d.code.push ⟨none, .exit⟩) d.source))).reading tokens none rest)
    hr (by decide) (.inl rfl) hm hb fun called o => closeDefinition_reading
      (s := entering called { s.knowing (some token.location) s.dictionary with observers := o })
        hc ht
  refine ⟨o, ?_⟩
  rw [operation_token hf, hx, bind_apply]
  dsimp only [runLexeme]
  rw [ho]
  rfl

/-! ## Steps -/

/-- An operation behind which no source is used up is a step. -/
theorem takeSteps_of_operation {steps : Nat} (hc : s.cancelled = false)
    (hp : s.frame ≠ none ∨ s.sources ≠ []) (h : operation s = .ok () t)
    (ht : t.frame = none → unusedSources t.sources = .ok t.sources) :
    takeSteps (steps + 1) s = takeSteps steps t := by
  have hstep : checked step s = .ok () t := by
    refine checked_ok ?_
    rw [step_of_running hc, bind_apply, h]
    exact dropUsedSources_of_unused ht
  rw [takeSteps_succ, if_pos ((hasPending_iff s).2 hp), hstep]

/-- The tokens of a body build their operations one behind the other. -/
theorem exists_takeSteps_body (rest : List Pending) {k : Dictionary} {body : List Token}
    (hf : s.frame = none)
    (hc : s.cancelled = false) (hk : ∀ name, s.dictionary.find? name = k.find? name)
    (htype : k.Means "TYPE" (.output .type)) (hbody : ∀ x ∈ body, x.lexeme.Portable k)
    (token : Token) (tokens : List Token) (d : Definition) (steps : Nat) :
    ∃ l d', d.Extends (body.flatMap fun x => x.lexeme.ops k) d' ∧
      takeSteps (body.length + steps) (s.reading (body ++ token :: tokens) (some d) rest) =
        takeSteps steps
          ((s.knowing l s.dictionary).reading (token :: tokens) (some d') rest) := by
  induction body generalizing s d with
  | nil =>
    refine ⟨s.location, d, ⟨rfl, rfl, (List.append_nil _).symm⟩, ?_⟩
    rw [List.length_nil, Nat.zero_add]
    rfl
  | cons first body ih =>
    obtain ⟨d₁, hd₁, h⟩ := exists_operation_bodyToken (body ++ token :: tokens) rest d hf hk
      (hbody first List.mem_cons_self) htype
    obtain ⟨l, d₂, hd₂, hsteps⟩ := ih (s := s.knowing (some first.location) s.dictionary) hf hc hk
      (fun x hx => hbody x (List.mem_cons_of_mem _ hx)) d₁
    refine ⟨l, d₂, hd₁.trans hd₂, ?_⟩
    rw [List.length_cons, Nat.add_right_comm, List.cons_append]
    refine (takeSteps_of_operation (s := s.reading _ _ _) hc (.inr (List.cons_ne_nil _ _)) h
      fun _ => ?_).trans hsteps
    cases body <;> rfl

/-- A definition of portable tokens leaves nothing behind but its word, at the end of the
dictionary, with the code that its tokens stand for. -/
theorem exists_takeSteps_definition (rest : List Pending) {colon semicolon : Token}
    {body : List Token}
    (hf : s.frame = none) (hb : s.builtin = none) (hc : s.cancelled = false)
    (hr : s.dictionary.Roles) (hm : s.dictionary.Means ":" (.defining .colon))
    (hm' : s.dictionary.Means ";" (.defining .semicolon))
    (htype : s.dictionary.Means "TYPE" (.output .type)) (hcolon : colon.lexeme = .word ":")
    (hn : named.name? = some name) (hsemicolon : semicolon.lexeme = .word ";")
    (hbody : ∀ x ∈ body, x.lexeme.Portable s.dictionary) (token : Token) (tokens : List Token) :
    ∃ steps l e code observers,
      takeSteps steps (s.reading (colon :: named :: (body ++ semicolon :: token :: tokens)) none
          rest) =
        .ok () { (s.knowing l (s.dictionary.push e)).reading (token :: tokens) none rest with
          observers } ∧
      e.name = Text.uppercase name ∧ e.visible = true ∧ e.immediate = false ∧
      e.compileOnly = false ∧ e.body = .compiled code ∧
      code.ops = (body.flatMap fun x => x.lexeme.ops s.dictionary) ++ [.exit] := by
  let reserved := (Entry.reserved named.location name).inserted s.dictionary.size
  have hhidden (word : String) : (s.dictionary.push reserved).find? word =
      s.dictionary.find? word := by
    rw [Dictionary.find?_push, if_neg]
    simp [Dictionary.answers, reserved, Entry.inserted, Entry.reserved]
  obtain ⟨o, hopen⟩ := exists_operation_colon (body ++ semicolon :: token :: tokens) rest hf hb hr
    hm hcolon hn
  obtain ⟨l, d, hd, hsteps⟩ := exists_takeSteps_body
    (s := { s.knowing (some colon.location) (s.dictionary.push reserved) with observers := o })
    rest hf hc hhidden htype hbody semicolon (token :: tokens)
    (.opened s.dictionary.size (Text.uppercase name) named.location) 1
  have hops : Code.ops d.code = body.flatMap fun x => x.lexeme.ops s.dictionary := hd.ops
  have hfinished : Code.ops (d.code.push ⟨none, .exit⟩) =
      (body.flatMap fun x => x.lexeme.ops s.dictionary) ++ [.exit] := by
    rw [← hops]
    simp [Code.ops]
  have hstray : Definition.strayTarget? (d.code.push ⟨none, .exit⟩) = none := by
    refine Definition.strayTarget?_of_ops fun op hop => ?_
    rw [hfinished] at hop
    rcases List.mem_append.1 hop with hop | hop
    · obtain ⟨x, -, hx⟩ := List.mem_flatMap.1 hop
      exact Lexeme.target?_of_mem_ops hx
    · rw [List.mem_singleton.1 hop]
      rfl
  have hroles : (s.dictionary.push reserved).Roles :=
    hr.insert (e := Entry.reserved named.location name) ⟨(fun w hw => by cases hw), fun _ => rfl⟩
  obtain ⟨index, e, hfind, he⟩ := hm'
  let u := { s.knowing l (s.dictionary.push reserved) with observers := o }
  obtain ⟨o', hclose⟩ := exists_operation_semicolon (s := u) (token :: tokens) rest hf hb hroles
    ⟨index, e, (hhidden ";").trans hfind, he⟩ hsemicolon hd.control hstray
  have hname : reserved.name = Text.uppercase name := by
    show Text.uppercase (Text.uppercase name) = _
    rw [Text.uppercase_uppercase]
  have hpush : (s.dictionary.push reserved).modify d.word
      (Entry.filled (d.code.push ⟨none, .exit⟩) d.source) = s.dictionary.push
        (reserved.filled (d.code.push ⟨none, .exit⟩) d.source) := by
    rw [show d.word = s.dictionary.size from hd.word, Dictionary.modify_push]
  refine ⟨1 + (body.length + 1), some semicolon.location,
    reserved.filled (d.code.push ⟨none, .exit⟩) d.source, d.code.push ⟨none, .exit⟩, o', ?_, hname,
    rfl, rfl, rfl, rfl, hfinished⟩
  rw [Nat.add_comm 1, takeSteps_of_operation (s := s.reading _ _ _) hc
    (.inr (List.cons_ne_nil _ _)) hopen fun _ => by cases body <;> rfl]
  refine hsteps.trans ((takeSteps_of_operation (s := u.reading _ _ _) hc
    (.inr (List.cons_ne_nil _ _)) hclose fun _ => rfl).trans ?_)
  rw [← hpush]
  rfl

end Action

end StackLang
