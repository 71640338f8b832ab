import StackLang.Proofs.Blur.Words

/-!
# Steps of sessions that look alike

One operation of two sessions that look alike: an instruction of the words that run in them, or the
tokens that come next.

* `tracks_call`, `tracks_leaveWord`: the words that a call and an exit lead to look alike.
* `tracks_runInstruction`, `tracks_runToken`: an instruction, a token.
* `matches_operation`: an operation, as long as the first session has not run out of tokens.
-/

namespace StackLang

namespace Near

variable {b : Blur} {more : List Token} {s t : Session} (h : Near b more s t)
include h

theorem setFrame {f f' : Option CallFrame} (hf : f'.map b.frame = f.map b.frame) :
    Near b more { s with frame := f } { t with frame := f' } :=
  { h with frame := hf }

/-- A word that looks alike goes on at the same instruction. -/
theorem goOn {f f' : CallFrame} (hf : b.frame f' = b.frame f) (i : Nat) :
    Near b more { s with frame := some { f with next := i } }
      { t with frame := some { f' with next := i } } :=
  h.setFrame (congrArg (fun g : CallFrame => some { g with next := i }) hf :)

/-- A word is called from where the sessions are. -/
theorem enter (name : String) (builtin : Option String) : Near b more
    { s with
      calls := ⟨name, s.location.getD .unspecified⟩ :: s.calls
      builtin }
    { t with
      calls := ⟨name, t.location.getD .unspecified⟩ :: t.calls
      builtin } := by
  refine { h with builtin := rfl, calls := ?_ }
  have hl : b.place (t.location.getD .unspecified) = b.place (s.location.getD .unspecified) := by
    rw [← Option.getD_map b.place, ← Option.getD_map b.place, h.location]
  simp only [List.map_cons, Blur.callItem, hl, h.calls]

/-- The word that was called last has come to its end. -/
theorem leave (builtin : Option String) : Near b more
    { s with calls := s.calls.tail, builtin } { t with calls := t.calls.tail, builtin } := by
  refine { h with builtin := rfl, calls := ?_ }
  simp only [List.map_tail, h.calls]

theorem loop? (depth : Nat) : t.returns.loop? depth = s.returns.loop? depth := by
  rw [← b.loop?_returns, h.returns, b.loop?_returns]

end Near

namespace Blur

open Action

variable {b : Blur} {more : List Token} {α : Type} {f f' : CallFrame}

/-! ## Calls -/

theorem tracks_finishWord (name : String) :
    b.Tracks more Eq (finishWord name) (finishWord name) := by
  refine Tracks.view fun s t h => (tracks_notify _ _).bindSame fun _ => ?_
  rw [h.mode]
  split
  · exact tracks_notify _ _
  · exact Tracks.pure rfl

theorem tracks_callBuiltin (name : String) (w : Builtin) :
    b.Tracks more Eq (callBuiltin name w) (callBuiltin name w) := by
  refine (Tracks.modify fun _ _ h => h.enter name (some name)).bindSame fun _ => ?_
  refine (tracks_builtin w).bindSame fun _ => ?_
  exact (Tracks.modify fun _ _ h => h.leave none).bindSame fun _ => tracks_finishWord name

theorem tracks_callCompiled (i : Nat) (name : String) {c c' : Code} (hc : b.code c' = b.code c) :
    b.Tracks more Eq (callCompiled i name c) (callCompiled i name c') := by
  refine Tracks.view fun s t h => ?_
  have hcaller : b.item (.call t.frame) = b.item (.call s.frame) := by
    simp only [item, h.frame]
  refine (Tracks.modify fun _ _ h => h.setFrame rfl).bindSame fun _ => ?_
  refine (tracks_pushReturn hcaller).bindSame fun _ => Tracks.modify fun s t h => ?_
  have hframe : (some (⟨i, name, c', 0⟩ : CallFrame)).map b.frame =
      (some ⟨i, name, c, 0⟩).map b.frame := by
    simp only [Option.map_some, frame, hc]
  have hn := (h.enter name s.builtin).setFrame hframe
  exact { hn with builtin := h.builtin }

theorem tracks_call (i : Nat) : b.Tracks more Eq (call i) (call i) := by
  refine Tracks.view fun s t h => ?_
  obtain ⟨hs, ht⟩ | ⟨e, e', hs, ht, he⟩ := exists_of_map_eq (h.get? i)
  · rw [hs, ht]
    exact tracks_raise rfl
  · rw [hs, ht]
    have hn : e'.name = e.name := (congrArg Entry.name he :)
    have hb : b.body e'.body = b.body e.body := congrArg Entry.body he
    refine (tracks_notify _ _).bindSame fun _ => ?_
    rw [hn]
    cases hs : e.body with
    | builtin w =>
      cases ht : e'.body with
      | builtin w' =>
        rw [hs, ht] at hb
        cases hb
        exact tracks_callBuiltin _ w
      | compiled c' =>
        rw [hs, ht] at hb
        cases hb
    | compiled c =>
      cases ht : e'.body with
      | builtin w' =>
        rw [hs, ht] at hb
        cases hb
      | compiled c' =>
        rw [hs, ht] at hb
        exact tracks_callCompiled i _ (Body.compiled.inj hb)

theorem tracks_leaveWord (hf : b.frame f' = b.frame f) :
    b.Tracks more Eq (leaveWord f) (leaveWord f') := by
  intro s t h
  have hn : f'.name = f.name := (congrArg CallFrame.name hf :)
  have he : (t.returns.exitCall.1.map (·.map b.frame), b.returns t.returns.exitCall.2) =
      (s.returns.exitCall.1.map (·.map b.frame), b.returns s.returns.exitCall.2) := by
    rw [← b.exitCall_returns, ← b.exitCall_returns, h.returns]
  obtain ⟨hcaller, hr⟩ := Prod.mk.inj he
  unfold leaveWord
  rw [get_bind, get_bind, hn]
  revert hcaller hr
  generalize s.returns.exitCall = x
  generalize t.returns.exitCall = x'
  obtain ⟨caller, r⟩ := x
  obtain ⟨caller', r'⟩ := x'
  intro hcaller hr
  obtain ⟨rfl, rfl⟩ | ⟨g, g', rfl, rfl, hg⟩ := exists_of_map_eq hcaller
  · exact tracks_breach _ s t h
  · refine tracks_finishWord _ _ _ ?_
    exact { (h.leave s.builtin).setFrame hg with builtin := h.builtin, returns := hr }

/-! ## Instructions -/

theorem tracks_jump (target : Target) : b.Tracks more Eq (jump target) (jump target) := by
  intro s t h
  unfold jump
  obtain ⟨hs, ht⟩ | ⟨g, g', hs, ht, hg⟩ := exists_of_map_eq h.frame
  · rw [hs, ht]
    exact .ok rfl h
  · have hz : g'.code.size = g.code.size := by
      rw [← b.size_code, show b.code g'.code = b.code g.code from congrArg CallFrame.code hg,
        b.size_code]
    have hbreach : b.Matches more Eq (breach (α := Unit) (.branchOutside target g.name) s)
        (breach (.branchOutside target g'.name) t) := by
      rw [show g'.name = g.name from (congrArg CallFrame.name hg :)]
      exact tracks_breach _ s t h
    rw [hs, ht]
    cases target with
    | none => exact hbreach
    | some i =>
      dsimp only
      rw [hz]
      split
      · exact .ok rfl (h.goOn hg i)
      · exact hbreach

theorem tracks_noLoop (word : String) :
    b.Tracks more Eq (noLoop word : Action Unit) (noLoop word) :=
  tracks_raise rfl

/-- The innermost loop can be dropped in both sessions, or in neither of them. -/
theorem popLoop?_eq {s t : Session} (h : Near b more s t) :
    t.returns.popLoop?.map (fun (frame, rest) => (frame, b.returns rest)) =
      s.returns.popLoop?.map fun (frame, rest) => (frame, b.returns rest) := by
  rw [← b.popLoop?_returns, ← b.popLoop?_returns, h.returns]

theorem tracks_closeLoop (word : String) : b.Tracks more Eq (closeLoop word) (closeLoop word) := by
  intro s t h
  unfold closeLoop
  rw [get_bind, get_bind]
  obtain ⟨hs, ht⟩ | ⟨x, x', hs, ht, hx⟩ := exists_of_map_eq (popLoop?_eq h)
  · rw [hs, ht]
    exact tracks_noLoop word s t h
  · rw [hs, ht]
    exact .ok rfl { h with returns := congrArg Prod.snd hx }

theorem tracks_advanceLoop (step : Int64) (target : Target) :
    b.Tracks more Eq (advanceLoop step target) (advanceLoop step target) := by
  refine Tracks.view fun s t h => ?_
  rw [h.loop?]
  split
  · exact tracks_noLoop _
  · rename_i frame _
    dsimp only
    split
    · refine Tracks.bindSame (Tracks.modify fun s t h => ?_) fun _ => tracks_jump target
      refine { h with returns := ?_ }
      show b.returns (t.returns.replaceLoop _) = b.returns (s.returns.replaceLoop _)
      rw [← b.replaceLoop_returns, ← b.replaceLoop_returns, h.returns]
    · refine Tracks.modify fun s t h => { h with returns := ?_ }
      dsimp only
      obtain ⟨hs, ht⟩ | ⟨x, x', hs, ht, hx⟩ := exists_of_map_eq (popLoop?_eq h)
      · rw [hs, ht]
        exact h.returns
      · rw [hs, ht]
        exact congrArg Prod.snd hx

theorem tracks_runLoop (kind : LoopKind) (target : Target) :
    b.Tracks more Eq (runLoop kind target) (runLoop kind target) := by
  cases kind with
  | start direction => exact (tracks_operands _).bindSame fun frame => tracks_pushReturn rfl
  | startUnlessEqual direction =>
    refine (tracks_operands _).bindSame fun frame => ?_
    split
    · exact tracks_jump target
    · exact tracks_pushReturn rfl
  | next => exact tracks_advanceLoop 1 target
  | nextBy => exact (tracks_operands _).bindSame fun step => tracks_advanceLoop step target
  | leave => exact (tracks_closeLoop _).bindSame fun _ => tracks_jump target
  | unloop => exact tracks_closeLoop _

theorem tracks_runOp (hf : b.frame f' = b.frame f) (op : Op) :
    b.Tracks more Eq (runOp f op) (runOp f' op) := by
  cases op with
  | callBuiltin index | callWord index => exact tracks_call index
  | push v => exact tracks_push v
  | branch target => exact tracks_jump target
  | branchIfFalse target =>
    refine (tracks_operands _).bindSame fun x => ?_
    split
    · exact tracks_jump target
    · exact Tracks.pure rfl
  | loop kind target => exact tracks_runLoop kind target
  | loopIndex depth =>
    refine Tracks.view fun s t h => ?_
    rw [h.loop?]
    split
    · exact tracks_push _
    · exact tracks_noLoop _
  | exit => exact tracks_leaveWord hf
  | recurse =>
    unfold runOp
    rw [show f'.word = f.word from (congrArg CallFrame.word hf :)]
    exact tracks_call f.word

theorem tracks_runInstruction (hf : b.frame f' = b.frame f) :
    b.Tracks more Eq (runInstruction f) (runInstruction f') := by
  have hcode : b.code f'.code = b.code f.code := congrArg CallFrame.code hf
  have hnext : f'.next = f.next := (congrArg CallFrame.next hf :)
  have hx : f'.code[f'.next]?.map b.instruction = f.code[f.next]?.map b.instruction := by
    rw [← b.getElem?_code, ← b.getElem?_code, hcode, hnext]
  unfold runInstruction
  obtain ⟨hs, ht⟩ | ⟨x, x', hs, ht, hx⟩ := exists_of_map_eq hx
  · rw [hs, ht, hnext, show f'.name = f.name from (congrArg CallFrame.name hf :)]
    exact tracks_breach _
  · have hl : x'.location.map b.place = x.location.map b.place := congrArg Instruction.location hx
    rw [hs, ht]
    dsimp only
    rw [show x'.op = x.op from (congrArg Instruction.op hx :)]
    refine Tracks.bindSame (Tracks.modify fun s t h => ?_) fun _ => tracks_runOp hf x.op
    have hor : (x'.location.or t.location).map b.place =
        (x.location.or s.location).map b.place := by
      rw [Option.map_or, Option.map_or, hl, h.location]
    rw [hnext]
    exact { h.goOn hf (f.next + 1) with location := hor }

/-! ## Tokens -/

section tokens

variable {l l' : Location} (hl : b.place l' = b.place l)
include hl

theorem tracks_compileAt (op : Op) :
    b.Tracks more Eq (compile (some l) op) (compile (some l') op) :=
  tracks_compile (show (some l').map b.place = (some l).map b.place from congrArg some hl) op

theorem tracks_literal (v : Value) : b.Tracks more Eq (literal l v) (literal l' v) := by
  refine Tracks.view fun s t h => ?_
  rw [h.isCompiling]
  split
  · exact tracks_compileAt hl _
  · exact tracks_push v

theorem tracks_stringLiteral (form : StringForm) (text : String) :
    b.Tracks more Eq (stringLiteral l form text) (stringLiteral l' form text) := by
  cases form with
  | display => exact tracks_print text
  | push => exact (tracks_literal hl _).bindSame fun _ => tracks_literal hl _
  | print =>
    refine Tracks.view fun s t h => ?_
    rw [h.isCompiling]
    split
    · refine Tracks.view fun s t h => ?_
      have htype : (t.dictionary.find? "TYPE").map b.found =
          (s.dictionary.find? "TYPE").map b.found := h.find? rfl
      obtain ⟨hs, ht⟩ | ⟨x, x', hs, ht, hx⟩ := exists_of_map_eq htype
      · rw [hs, ht]
        exact tracks_raise rfl
      · rw [hs, ht]
        dsimp only
        rw [show x'.1 = x.1 from (congrArg Prod.fst hx :)]
        refine (tracks_compileAt hl _).bindSame fun _ => ?_
        exact (tracks_compileAt hl _).bindSame fun _ => tracks_compileAt hl _
    · exact tracks_print text

theorem tracks_word {name name' : String} (hn : b.text name' = b.text name) :
    b.Tracks more Eq (word l name) (word l' name') := by
  refine (tracks_lookup hn).bind fun x x' hx => Tracks.view fun s t h => ?_
  obtain ⟨i, e⟩ := x
  obtain ⟨i', e'⟩ := x'
  obtain ⟨hi, he⟩ := Prod.mk.inj hx
  obtain rfl : i' = i := hi
  have hb : e'.isBuiltin = e.isBuiltin := by
    rw [← b.isBuiltin_entry, he, b.isBuiltin_entry]
  have hcompileOnly : e'.compileOnly = e.compileOnly := (congrArg Entry.compileOnly he :)
  have himmediate : e'.immediate = e.immediate := (congrArg Entry.immediate he :)
  have hname : e'.name = e.name := (congrArg Entry.name he :)
  dsimp only
  rw [h.isCompiling, hcompileOnly, himmediate, hname, hb]
  split
  · exact tracks_raise_bind rfl _ _
  · split
    · exact tracks_compileAt hl _
    · exact tracks_call _

end tokens

theorem tracks_runLexeme {l l' : Location} (hl : b.place l' = b.place l) {x x' : Lexeme}
    (hx : b.lexeme x' = b.lexeme x) :
    b.Tracks more Eq (runLexeme l x) (runLexeme l' x') := by
  cases x with
  | number value =>
    cases x' <;> cases hx
    exact tracks_literal hl _
  | string form text =>
    cases x' <;> cases hx
    exact tracks_stringLiteral hl form text
  | word name =>
    cases x' with
    | number | string => cases hx
    | word name' => exact tracks_word hl (Lexeme.word.inj hx)

theorem tracks_recordToken {x x' : Token} (hx : b.token x' = b.token x) :
    b.Tracks more Eq (recordToken x) (recordToken x') := by
  have htext : b.text x'.text = b.text x.text :=
    b.text_eq_of_lexeme (congrArg Token.lexeme hx)
  refine Tracks.view fun s t h => ?_
  obtain ⟨hs, ht⟩ | ⟨d, d', hs, ht, hd⟩ := exists_of_map_eq h.definition?
  · rw [hs, ht]
    exact Tracks.pure rfl
  · rw [hs, ht]
    refine tracks_keepDefinition ?_
    have hrecord (d : Definition) (text : String) :
        b.definition (d.record text) = (b.definition d).record (b.text text) := by
      simp [definition, Definition.record]
    rw [hrecord, hrecord, hd, htext]

theorem tracks_runToken {x x' : Token} (hx : b.token x' = b.token x) :
    b.Tracks more Eq (runToken x) (runToken x') := by
  have hl : b.place x'.location = b.place x.location := congrArg Token.location hx
  refine Tracks.view fun s t h => ?_
  dsimp only
  rw [h.isCompiling]
  refine Tracks.bindSame (Tracks.modify fun s t h => { h with location := congrArg some hl })
    fun _ => ?_
  refine (tracks_runLexeme hl (congrArg Token.lexeme hx)).bindSame fun _ => ?_
  split
  · exact tracks_recordToken hx
  · exact Tracks.pure rfl

/-- An operation, if the first session has not run out of the tokens that follow in the second. -/
theorem matches_operation {s t : Session} (h : Near b more s t)
    (hfresh : more = [] ∨
      (s.frame = none → ∀ p rest, s.sources = p :: rest → p.isExhausted = false)) :
    b.Matches more Eq (operation s) (operation t) := by
  unfold operation
  rw [get_bind, get_bind]
  obtain ⟨hs, ht⟩ | ⟨g, g', hs, ht, hg⟩ := exists_of_map_eq h.frame
  · rw [hs, ht]
    dsimp only
    rw [bind_apply, bind_apply]
    obtain ⟨x, x', u, u', hu, hu', hx, hn⟩ | ⟨hn, hn'⟩ := matches_nextToken? h
    · rw [hu, hu']
      exact tracks_runToken hx u u' hn
    · have hend : more = [] ∨ s.sources = [] := by
        refine hfresh.imp id fun hfresh => ?_
        cases hsources : s.sources with
        | nil => rfl
        | cons p rest =>
          have he := hfresh hs p rest hsources
          unfold nextToken? at hn
          rw [hsources] at hn
          cases hp : p.tokens with
          | nil =>
            rw [Pending.isExhausted, hp] at he
            cases he
          | cons x tokens =>
            simp only [Pending.nextToken?, hp] at hn
            cases hn
      rw [hn, hn' hend]
      exact .ok rfl h
  · rw [hs, ht]
    exact tracks_runInstruction hg s t h

end Blur

end StackLang
