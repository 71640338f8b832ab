import StackLang.Proofs.Definition.Scopes
import StackLang.Proofs.Saved.Standard
import StackLang.Proofs.Words.Outline

/-!
# Sources without endless loops

Every token is taken once, so the sources that wait have a supply that only shrinks.  As long as no
token is a `BEGIN` or a `+LOOP`, and no word is run that does what these do, all code that comes of
them is of the kind that only goes back to step a counted loop.

* `Pending.supply`: the tokens to come, and the sources that they come from.
* `Session.Counting`: the code of a session is of that kind, and will be.
* `triple_callBuiltin_counting`, `triple_runToken_counting`: what keeps it so.
-/

namespace StackLang

/-- Is the lexeme one of the words that make endless loops, in any letter case? -/
def Lexeme.isEndless : Lexeme → Bool
  | word name => Text.uppercase name == "BEGIN" || Text.uppercase name == "+LOOP"
  | _ => false

/-- A source without `BEGIN` and `+LOOP`. -/
def Pending.Counting (p : Pending) : Prop :=
  ∀ t ∈ p.tokens, t.lexeme.isEndless = false

instance : DecidablePred Pending.Counting :=
  fun p => inferInstanceAs (Decidable (∀ t ∈ p.tokens, t.lexeme.isEndless = false))

/-- How many tokens are to come, counting the end of each source. -/
def Pending.supply : List Pending → Nat
  | [] => 0
  | p :: rest => p.tokens.length + 1 + supply rest

/-- The word makes endless loops. -/
def Builtin.isEndless : Builtin → Bool
  | control w => w.isEndless
  | _ => false

/-- The code of a word goes back to step a counted loop only, and a built-in word has its own
name. -/
structure Entry.Counting (e : Entry) : Prop where
  code : ∀ code, e.body = .compiled code → code.Counting
  name : ∀ w, e.body = .builtin w → e.name = w.spec.name

/-- The entry is not that of a word that makes endless loops. -/
def Entry.Mild (e : Entry) : Prop :=
  ∀ w, e.body = .builtin w → w.isEndless = false

/-- There are at most `k` tokens to come, none of which makes an endless loop, and neither has one
of those before. -/
structure Session.Counting (k : Nat) (s : Session) : Prop where
  supply : Pending.supply s.sources ≤ k
  sources : ∀ p ∈ s.sources, p.Counting
  entries : ∀ i e, s.dictionary.get? i = some e → e.Counting
  definition : ∀ d, s.definition? = some d → d.Counting

/-! ## Code without loops -/

theorem Definition.Counting.emit {d : Definition} (h : d.Counting) {l : Option Location} {op : Op}
    (hop : ∀ scopes i σ, op.Heads scopes i σ ↔ scopes[i + 1]? = some σ) :
    Counting { d with code := d.code.push ⟨l, op⟩ } := by
  obtain ⟨scopes, h⟩ := h
  exact h.emit ((hop _ _ _).2 (h.next _))

theorem Code.counting_value (l : Option Location) (v : Value) :
    Counting #[⟨l, .push v⟩, ⟨none, .exit⟩] := by
  have hpush : Definition.Counting { Definition.opened 0 "" .unspecified with
      code := #[⟨l, .push v⟩] } :=
    (Definition.counting_opened 0 "" .unspecified).emit fun _ _ _ => .rfl
  exact (Definition.counting_finish hpush (by
    rw [Definition.finish_eq]
    rfl)).2 _ rfl

theorem Entry.counting_valueEntry (location : Location) (name : String) (v : Value)
    (signature : String) (origin : Origin) :
    (DefiningWord.valueEntry location name v signature origin).Counting where
  code := by
    rintro code ⟨⟩
    exact Code.counting_value _ v
  name := fun _ h => by cases h

theorem Entry.counting_reserved (location : Location) (name : String) :
    (Entry.reserved location name).Counting where
  code := by
    rintro code ⟨⟩
    exact Code.counting_nil
  name := fun _ h => by cases h

/-! ## The words of a name -/

theorem Builtin.isEndless_eq_false {w : Builtin} (hb : w.spec.name ≠ "BEGIN")
    (hl : w.spec.name ≠ "+LOOP") : w.isEndless = false := by
  cases w with
  | control w =>
    cases w with
    | openBegin => exact (hb rfl).elim
    | closePlusLoop => exact (hl rfl).elim
    | _ => rfl
  | _ => rfl

/-- A name finds no word of another name. -/
theorem Entry.Counting.mild_of_find? {d : Dictionary} {name : String} {i : Nat} {e : Entry}
    (h : e.Counting) (hf : d.find? name = some (i, e))
    (hn : (Lexeme.word name).isEndless = false) : e.Mild := by
  obtain ⟨-, -, ha, -⟩ := Dictionary.find?_eq_some_iff.1 hf
  simp only [Dictionary.answers, Bool.and_eq_true, beq_iff_eq] at ha
  intro w hw
  rw [Lexeme.isEndless, ← ha.2, h.name w hw, Bool.or_eq_false_iff, beq_eq_false_iff_ne,
    beq_eq_false_iff_ne] at hn
  exact Builtin.isEndless_eq_false hn.1 hn.2

namespace Session

open StackLang.Action

variable {α : Type} {k : Nat} {s t : Session}

/-- Nothing is asked of a session in which an operation has failed. -/
abbrev Anything : Fault → Session → Prop := fun _ _ => True

theorem insensitive_counting (k : Nat) : Insensitive (Counting k) Anything where
  fails := fun _ _ => trivial
  data := fun _ _ h => ⟨h.supply, h.sources, h.entries, h.definition⟩
  prints := fun _ h => ⟨h.supply, h.sources, h.entries, h.definition⟩
  observe := fun _ h => ⟨h.supply, h.sources, h.entries, h.definition⟩
  token := by
    intro s source behind rest t hs ht h
    have hsuffix := Pending.suffix_of_nextToken? ht
    have hsupply := h.supply
    have hsources := h.sources
    rw [hs] at hsupply hsources
    refine ⟨?_, ?_, h.entries, fun d hd => ?_⟩
    · have hlen := hsuffix.length_le
      simp only [Pending.supply] at hsupply ⊢
      omega
    · intro p hp
      rcases List.mem_cons.1 hp with rfl | hp
      · exact fun x hx => hsources source List.mem_cons_self x (hsuffix.subset hx)
      · exact hsources p (List.mem_cons_of_mem _ hp)
    · refine h.definition d ?_
      rw [definition?_of_sources hs, ← Pending.definition_of_nextToken? ht]
      exact hd
  putAside := fun _ h => ⟨h.supply, h.sources, h.entries, h.definition⟩
  takeBack := fun _ h => ⟨h.supply, h.sources, h.entries, h.definition⟩

theorem Counting.setDefinition {s : Session} (h : s.Counting k) {p : Pending}
    {rest : List Pending} (hs : s.sources = p :: rest) {new : Option Definition}
    (hd : ∀ d, new = some d → d.Counting) :
    Counting k { s with sources := { p with definition := new } :: rest } where
  supply := by
    have hsupply := h.supply
    rw [hs] at hsupply
    exact hsupply
  sources := by
    have hsources := h.sources
    rw [hs] at hsources
    intro q hq
    rcases List.mem_cons.1 hq with rfl | hq
    · exact hsources p List.mem_cons_self
    · exact hsources q (List.mem_cons_of_mem _ hq)
  entries := h.entries
  definition := hd

theorem triple_setDefinition_counting {new : Option Definition}
    (hd : ∀ d, new = some d → d.Counting) :
    Triple (Counting k) (setDefinition new) (fun _ => Counting k) Anything := by
  refine Triple.modify fun s hs => ?_
  cases hsrc : s.sources with
  | nil => exact hs
  | cons p rest => exact hs.setDefinition hsrc hd

theorem triple_currentSource_counting :
    Triple (Counting k) (discard currentSource) (fun _ => Counting k) Anything := by
  refine Triple.discard fun s hs => ?_
  unfold currentSource
  cases s.sources with
  | nil => trivial
  | cons source rest => exact hs

theorem triple_currentDefinition_counting :
    Triple (Counting k) currentDefinition (fun d s => s.Counting k ∧ d.Counting) Anything := by
  intro s hs
  unfold currentDefinition
  cases hd : s.definition? with
  | none => trivial
  | some d => exact ⟨hs, hs.definition d hd⟩

/-- An edit that goes on with a definition of the same kind, and whose results have `Φ`. -/
theorem triple_edit_counting {p : Definition.Edit α} {Φ : α → Prop}
    (hp : ∀ d a d', d.Counting → p d = .ok a d' → d'.Counting ∧ Φ a) :
    Triple (Counting k) (edit p) (fun a s => s.Counting k ∧ Φ a) Anything := by
  refine triple_currentDefinition_counting.bind fun d => ?_
  refine Triple.of_fact (fun s hs => hs.2) fun hd => ?_
  cases hr : p d with
  | ok a d' =>
    obtain ⟨hd', ha⟩ := hp d a d' hd hr
    refine Triple.bind (Q := fun _ => Counting k) ?_ fun _ => Triple.pure fun t ht => ⟨ht, ha⟩
    refine (triple_setDefinition_counting fun x hx => ?_).mono (fun _ h => h.1) fun _ _ h => h
    exact Option.some.inj hx ▸ hd'
  | error cause d' => exact fun _ _ => trivial

theorem triple_control_counting {w : ControlWord} (hw : w.isEndless = false) :
    Triple (Counting k) w.run (fun _ => Counting k) Anything := by
  refine Triple.view fun s => ?_
  refine (triple_edit_counting (Φ := fun _ => True) fun d a d' hd hr => ?_).mono (fun _ h => h)
    fun _ _ h => h.1
  exact ⟨Definition.counting_compileStep hd s.location hw hr, trivial⟩

/-! ## Words that change the dictionary -/

/-- The session with another dictionary. -/
theorem Counting.setDictionary (h : s.Counting k) {d : Dictionary}
    (hd : ∀ i e, d.get? i = some e → e.Counting) : Counting k { s with dictionary := d } :=
  ⟨h.supply, h.sources, hd, h.definition⟩

theorem triple_define_counting {e : Entry} (he : e.Counting)
    (hb : ∀ w, e.body ≠ .builtin w) :
    Triple (Counting k) (define e) (fun _ => Counting k) Anything := by
  refine fun s hs => hs.setDictionary fun i x hx => ?_
  rcases Dictionary.get?_insert hx with hx | rfl
  · exact hs.entries i x hx
  · exact ⟨he.code, fun w hw => (hb w hw).elim⟩

theorem triple_defineValue_counting (location : Location) (name : String) (v : Value)
    (signature : String) (origin : Origin) :
    Triple (Counting k)
      (discard (define (DefiningWord.valueEntry location name v signature origin)))
      (fun _ => Counting k) Anything :=
  Triple.discard (triple_define_counting (Entry.counting_valueEntry ..) nofun)

theorem triple_openDefinition_counting :
    Triple (Counting k) DefiningWord.openDefinition (fun _ => Counting k) Anything := by
  refine Triple.view fun s => ?_
  dsimp only
  split
  · exact triple_raise_bind fun _ _ => trivial
  · refine triple_currentSource_counting.bind fun _ => ?_
    refine (insensitive_counting k).triple_nextName.bind fun x => ?_
    refine (triple_define_counting (Entry.counting_reserved x.1 x.2) nofun).bind fun index => ?_
    refine triple_currentSource_counting.bind fun _ => triple_setDefinition_counting fun d hd => ?_
    exact Option.some.inj hd ▸ Definition.counting_opened ..

theorem triple_closeDefinition_counting :
    Triple (Counting k) DefiningWord.closeDefinition (fun _ => Counting k) Anything := by
  refine (triple_edit_counting fun d r d' hd hr => Definition.counting_finish hd hr).bind
    fun r => ?_
  refine Triple.of_fact (fun s hs => hs.2) fun hcode => ?_
  cases r with
  | error b => exact fun _ _ => trivial
  | ok code =>
    refine (triple_currentDefinition_counting.mono (fun _ h => h.1) fun _ _ h => h).bind
      fun d => ?_
    refine ((triple_setDefinition_counting fun d hd => by cases hd).mono (fun _ h => h.1)
      fun _ _ h => h).bind fun _ => Triple.modify fun s hs => hs.setDictionary fun i x hx => ?_
    rcases Dictionary.get?_modify hx with hx | ⟨e, -, -, rfl⟩
    · exact hs.entries i x hx
    · refine ⟨?_, fun _ h => by cases h⟩
      rintro code ⟨⟩
      exact hcode _ rfl

theorem triple_makeImmediate_counting :
    Triple (Counting k) DefiningWord.makeImmediate (fun _ => Counting k) Anything := by
  refine Triple.view fun s => ?_
  split
  · refine Triple.modify fun t ht => ht.setDictionary fun i x hx => ?_
    rcases Dictionary.get?_modify hx with hx | ⟨e, -, he, rfl⟩
    · exact ht.entries i x hx
    · exact ⟨(ht.entries _ e he).code, (ht.entries _ e he).name⟩
  · exact triple_raise fun _ _ => trivial

theorem triple_forgetWord_counting :
    Triple (Counting k) DefiningWord.forgetWord (fun _ => Counting k) Anything := by
  refine (insensitive_counting k).triple_nextName.bind fun x => ?_
  refine ((insensitive_counting k).triple_lookup x.2).bind fun y => ?_
  dsimp only
  split
  · exact Triple.view fun s => triple_raise_bind fun _ _ => trivial
  · exact Triple.modify fun s hs =>
      hs.setDictionary fun i e he => hs.entries i e (Dictionary.get?_forgetBackTo he)

theorem Counting.resetDefinitions (h : s.Counting k) : s.resetDefinitions.Counting k :=
  ⟨h.supply, h.sources, fun i e he => h.entries i e (Dictionary.get?_forgetBackTo he),
    h.definition⟩

theorem triple_defining_counting (w : DefiningWord) :
    Triple (Counting k) w.run (fun _ => Counting k) Anything := by
  have hP := insensitive_counting k
  cases w with
  | colon => exact triple_openDefinition_counting
  | semicolon => exact triple_closeDefinition_counting
  | constant =>
    refine (hP.triple_operands _).bind fun _ => hP.triple_nextName.bind fun x => ?_
    exact (hP.triple_operands _).bind fun v => triple_defineValue_counting _ _ _ _ _
  | «variable» =>
    refine hP.triple_nextName.bind fun x => (hP.triple_allot 1).bind fun address => ?_
    exact triple_defineValue_counting _ _ _ _ _
  | immediate => exact triple_makeImmediate_counting
  | forget => exact triple_forgetWord_counting
  | reset => exact Triple.modify fun s hs => hs.resetDefinitions

theorem triple_builtin_counting {w : Builtin} (hw : w.isEndless = false) :
    Triple (Counting k) w.run (fun _ => Counting k) Anything := by
  have hP := insensitive_counting k
  cases w with
  | stack w => exact hP.triple_operands _
  | returns w => exact hP.triple_returns w
  | math w => exact hP.triple_operands _
  | memory w => exact hP.triple_memory w
  | defining w => exact triple_defining_counting w
  | control w => exact triple_control_counting hw
  | output w => exact hP.triple_output w

/-! ## Calls -/

/-- Where the session is, which words are running and what was told about them does not matter. -/
theorem Counting.elsewhere (h : s.Counting k) (location : Option Location)
    (builtin : Option String) (calls : List CallItem) (frame : Option CallFrame)
    (returns : ReturnStack) : Counting k { s with location, builtin, calls, frame, returns } :=
  ⟨h.supply, h.sources, h.entries, h.definition⟩

theorem triple_finishWord_counting (name : String) :
    Triple (Counting k) (finishWord name) (fun _ => Counting k) Anything := by
  have hP := insensitive_counting k
  refine Triple.view fun s => (hP.triple_notify _).bind fun _ => ?_
  split
  · exact hP.triple_notify _
  · exact Triple.pure fun _ h => h

theorem triple_callBuiltin_counting (name : String) {w : Builtin} (hw : w.isEndless = false) :
    Triple (Counting k) (callBuiltin name w) (fun _ => Counting k) Anything := by
  refine Triple.bind (Q := fun _ => Counting k)
    (Triple.modify fun s h => h.elsewhere s.location _ _ s.frame s.returns) fun _ => ?_
  refine (triple_builtin_counting hw).bind fun _ => ?_
  refine Triple.bind (Q := fun _ => Counting k)
    (Triple.modify fun s h => h.elsewhere s.location _ _ s.frame s.returns) fun _ => ?_
  exact triple_finishWord_counting name

/-- The word at the index does not make endless loops. -/
theorem triple_call_counting (index : Nat) :
    Triple (fun s => s.Counting k ∧ ∀ e, s.dictionary.get? index = some e → e.Mild)
      (call index) (fun _ => Counting k) Anything := by
  refine Triple.get_bind fun s ⟨hs, hmild⟩ => ?_
  split
  · exact triple_raise fun _ _ => trivial
  · rename_i entry he
    have start : ∀ t, t = s → t.Counting k := fun t ht => ht ▸ hs
    refine (((insensitive_counting k).triple_notify _).mono start fun _ _ h => h).bind fun _ => ?_
    split
    · rename_i w hb
      exact triple_callBuiltin_counting _ (hmild entry he w hb)
    · intro t ht
      rw [callCompiled_eq]
      cases t.returns.push? (.call t.frame) with
      | none => trivial
      | some returns => exact ht.elsewhere t.location t.builtin _ _ returns

/-! ## Tokens -/

theorem triple_compile_counting (location : Option Location) {op : Op}
    (hop : ∀ scopes i σ, op.Heads scopes i σ ↔ scopes[i + 1]? = some σ) :
    Triple (Counting k) (compile location op) (fun _ => Counting k) Anything := by
  refine Triple.discard ((triple_edit_counting (Φ := fun _ => True) fun d a d' hd hr => ?_).mono
    (fun _ h => h) fun _ _ h => h.1)
  cases hr
  exact ⟨hd.emit hop, trivial⟩

theorem triple_literal_counting (location : Location) (v : Value) :
    Triple (Counting k) (literal location v) (fun _ => Counting k) Anything := by
  refine Triple.view fun s => ?_
  split
  · exact triple_compile_counting _ fun _ _ _ => .rfl
  · exact (insensitive_counting k).triple_push v

theorem triple_stringLiteral_counting (location : Location) (form : StringForm) (text : String) :
    Triple (Counting k) (stringLiteral location form text) (fun _ => Counting k) Anything := by
  have hP := insensitive_counting k
  cases form with
  | display => exact hP.triple_print text
  | push => exact (triple_literal_counting location _).bind fun _ =>
      triple_literal_counting location _
  | print =>
    refine Triple.view fun s => ?_
    split
    · refine Triple.view fun t => ?_
      split
      · exact hP.triple_raise _
      · refine (triple_compile_counting _ fun _ _ _ => .rfl).bind fun _ => ?_
        refine (triple_compile_counting _ fun _ _ _ => .rfl).bind fun _ => ?_
        exact triple_compile_counting _ fun _ _ _ => .rfl
    · exact hP.triple_print text

theorem triple_lookup_counting {name : String}
    (hn : (Lexeme.word name).isEndless = false) :
    Triple (Counting k) (lookup name) (fun found s => s.Counting k ∧
      ∀ e, s.dictionary.get? found.1 = some e → e.Mild) Anything := by
  intro s hs
  unfold lookup
  cases hf : s.dictionary.find? name with
  | none => trivial
  | some found =>
    refine ⟨hs, fun e he => ?_⟩
    obtain ⟨-, hget, -⟩ := Dictionary.find?_eq_some_iff.1 hf
    rw [hget] at he
    cases he
    exact (hs.entries _ _ hget).mild_of_find? hf hn

theorem triple_word_counting (location : Location) {name : String}
    (hn : (Lexeme.word name).isEndless = false) :
    Triple (Counting k) (word location name) (fun _ => Counting k) Anything := by
  refine (triple_lookup_counting hn).bind fun ⟨index, entry⟩ => Triple.view fun s => ?_
  dsimp only
  split
  · exact triple_raise_bind fun _ _ => trivial
  · split
    · refine (triple_compile_counting _ fun _ _ _ => ?_).mono (fun _ h => h.1) fun _ _ h => h
      split <;> exact .rfl
    · exact triple_call_counting index

theorem triple_recordToken_counting (token : Token) :
    Triple (Counting k) (recordToken token) (fun _ => Counting k) Anything := by
  refine Triple.get_bind fun s hs => ?_
  split
  · rename_i d hd
    refine (triple_setDefinition_counting fun x hx => ?_).mono (fun t ht => ht ▸ hs)
      fun _ _ h => h
    exact Option.some.inj hx ▸ (hs.definition d hd).record _
  · exact Triple.pure fun t ht => ht ▸ hs

theorem triple_runToken_counting {token : Token} (hn : token.lexeme.isEndless = false) :
    Triple (Counting k) (runToken token) (fun _ => Counting k) Anything := by
  refine Triple.view fun s => Triple.bind (Q := fun _ => Counting k)
    (Triple.modify fun t ht => ht.elsewhere _ t.builtin t.calls t.frame t.returns) fun _ => ?_
  refine Triple.bind (Q := fun _ => Counting k) ?_ fun _ => ?_
  · cases hl : token.lexeme with
    | number value => exact triple_literal_counting _ _
    | string form text => exact triple_stringLiteral_counting _ _ _
    | word name => exact triple_word_counting _ (hl ▸ hn)
  · split
    · exact triple_recordToken_counting token
    · exact Triple.pure fun _ hs => hs

end Session

end StackLang
